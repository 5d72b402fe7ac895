import RdsProv.Matching

/-!
# Inbound parsing

`rds_handle_inbound` dispatches on the operation byte of a header that came off
the wire. The length check that protects the segment array is tied to one value of
that byte, `RDS_OP_RTS`, while the branches that use the array are taken by every
value that is not `RDS_OP_EAGER` and was not returned on before. For the five
operations of `enum rds_op` the two agree. For any other byte the message is
treated as a request whose length nobody checked: it takes a posted receive or is
buffered, and its segments are read from wherever they would lie.

The handler is followed here with the segments it reads or copies of the payload
next to the endpoint it leaves (`rdsHandleInboundSegs`). It is the handler
(`rdsHandleInboundSegs_fst`), and of the array it looks at those segments only
(`rdsStartRndzvReadSegs_congr`, `rdsEnqueueUnexpSegs_congr`). `inbound_safe_iff` says
exactly when a call is harmless.
-/

/-- The five operations of `enum rds_op`. -/
def Hdr.Known (hdr : Hdr) : Prop :=
  hdr.op = rdsOpEager ∨ hdr.op = rdsOpRts ∨ hdr.op = rdsOpFin ∨ hdr.op = rdsOpRingReq
    ∨ hdr.op = rdsOpRingAck

instance (hdr : Hdr) : Decidable hdr.Known := by
  unfold Hdr.Known
  infer_instance

/-- The receive `rds_match_posted` finds for a message. -/
def rdsPostedFor (ep : Ep) (hdr : Hdr) (srcFi : UInt64) : Option RxEntry :=
  (ep.posted hdr.tagged).find? (fun rx => rdsMatches hdr.tagged rx srcFi hdr.tag)

/-! ## The segments that are read -/

/-- `segs[i]`, read from where it would lie in a payload. -/
def segAt (payload : List UInt8) (i : ℕ) : Seg := Seg.decode (payload.drop (i * rdsSegSize))

/-- The loop of `rds_start_rndzv_read`, for the `left` segments from the `i`-th on: the
reads it makes, and the segments it looks at for them. -/
def rndzvReadsSegs (iov : List Iovec) (effective : ℕ) (payload : List UInt8) :
    ℕ → ℕ → ℕ → List ReadReq × List ℕ
  | 0, _, _ => ([], [])
  | left + 1, i, off =>
    if off < effective then
      let s := segAt payload i
      let thisLen := min s.len.toNat (effective - off)
      let (reads, used) := rndzvReadsSegs iov effective payload left (i + 1) (off + thisLen)
      (⟨s.cookie, s.off, (rdsIovSlice iov off thisLen).1⟩ :: reads, i :: used)
    else ([], [])

/-- `rds_start_rndzv_read` on a payload, and the segments it looks at. -/
def rdsStartRndzvReadSegs (env : Env) (ep : Ep) (rx : RxEntry) (hdr : Hdr)
    (payload : List UInt8) (peer : SockAddr) (src : UInt64) : Ep × List ℕ :=
  match rdsPendingAlloc env ep .rndzvRx rx.context (rdsRxFlags hdr) with
  | (ep, none) =>
    (rdsCqWriteRx (rdsSendFin env ep peer hdr.id) rx.context (rdsRxFlags hdr) 0 hdr.data
      hdr.tag src fiEnomem, [])
  | (ep, some p) =>
    let p := p.ofRequest rx hdr peer src ep.cfg.rxOpFlags
    let ep := ep.log (.rxOpen p.id (rx.totalLen < hdr.size.toNat))
    let (reads, used) := rndzvReadsSegs rx.iov p.len payload hdr.segCnt.toNat 0 0
    let (ep, p) := reads.foldl (rdsIssueRead env peer hdr.id) (ep, p)
    (if p.segRemaining = 0 ∧ p.segDeferred = 0 then rdsRndzvRxFinalize env ep p
      else ep.linkPending p, used)

/-- `rds_enqueue_unexp` on a payload, and the segments it copies. -/
def rdsEnqueueUnexpSegs (env : Env) (ep : Ep) (hdr : Hdr) (payload : List UInt8)
    (src : SockAddr) (srcFi : UInt64) (no : ℕ) (tagged : Bool) : Ep × List ℕ :=
  match ep.malloc env with
  | (ep, false) => (if hdr.op = rdsOpRts then rdsSendFin env ep src hdr.id else ep, [])
  | (ep, true) =>
    if hdr.op = rdsOpEager then (ep.linkUnexp ⟨hdr, srcFi, src, [], payload, no⟩ tagged, [])
    else match ep.malloc env with
      | (ep, false) => (rdsSendFin env ep src hdr.id, [])
      | (ep, true) =>
        let used := List.range hdr.segCnt.toNat
        (ep.linkUnexp ⟨hdr, srcFi, src, used.map (segAt payload), [], no⟩ tagged, used)

/-- **`rds_handle_inbound`, and the segments of the payload it reads or copies.** -/
def rdsHandleInboundSegs (env : Env) (ep : Ep) (hdr : Hdr) (payload : List UInt8)
    (src : SockAddr) (srcFi : UInt64) : Ep × List ℕ :=
  if hdr.magic ≠ rdsHdrMagic then (ep, [])
  else if hdr.op = rdsOpFin then
    (match rdsPendingFind ep hdr.id with
      | none => ep
      | some p => if p.type = .rndzvTx then rdsPendingComplete ep p else ep, [])
  else if hdr.op = rdsOpRingReq ∨ hdr.op = rdsOpRingAck then
    (rdsRingHandleCtrl env ep hdr payload srcFi, [])
  else if hdr.op = rdsOpRts ∧ payload.length < hdr.segCnt.toNat * rdsSegSize then (ep, [])
  else
    let no := ep.arrivals
    match rdsMatchPosted { ep with arrivals := no + 1 } hdr srcFi hdr.tagged with
    | (ep, some rx) =>
      -- history: the pairing is recorded with the message as it was sent
      let ep := ep.log (.paired (Unexp.ofInbound hdr payload src srcFi no) rx)
      if hdr.op = rdsOpEager then (rdsDeliverEager ep rx hdr payload srcFi, [])
      else rdsStartRndzvReadSegs env ep rx hdr payload src srcFi
    | (ep, none) => rdsEnqueueUnexpSegs env ep hdr payload src srcFi no hdr.tagged

/-- The array is read segment by segment. -/
theorem decodeSegs_drop (payload : List UInt8) (n i : ℕ) :
    decodeSegs n (payload.drop (i * rdsSegSize)) = (List.range' i n).map (segAt payload) := by
  induction n generalizing i with
  | zero => rfl
  | succ n ih =>
    rw [decodeSegs, List.drop_drop, ← Nat.succ_mul, ih, List.range'_succ, List.map_cons]
    rfl

theorem decodeSegs_eq_map (payload : List UInt8) (n : ℕ) :
    decodeSegs n payload = (List.range n).map (segAt payload) := by
  have h := decodeSegs_drop payload n 0
  rwa [Nat.zero_mul, List.drop_zero, ← List.range_eq_range'] at h

/-- The loop makes the reads of the model, and looks at a segment for each. -/
theorem rndzvReadsSegs_eq (iov : List Iovec) (effective : ℕ) (payload : List UInt8)
    (left i off : ℕ) :
    (rndzvReadsSegs iov effective payload left i off).1
        = rndzvReads iov effective off (decodeSegs left (payload.drop (i * rdsSegSize)))
      ∧ ∀ k ∈ (rndzvReadsSegs iov effective payload left i off).2, k < i + left := by
  induction left generalizing i off with
  | zero => exact ⟨rfl, by simp [rndzvReadsSegs]⟩
  | succ left ih =>
    rw [decodeSegs, List.drop_drop, ← Nat.succ_mul, rndzvReads, rndzvReadsSegs]
    split
    · obtain ⟨hreads, hused⟩ := ih (i + 1) (off + min (segAt payload i).len.toNat (effective - off))
      refine ⟨congrArg (List.cons _) hreads, List.forall_mem_cons.mpr ⟨by omega, fun k hk => ?_⟩⟩
      have := hused k hk
      omega
    · exact ⟨rfl, by simp⟩

theorem rdsStartRndzvReadSegs_fst (env : Env) (ep : Ep) (rx : RxEntry) (hdr : Hdr)
    (payload : List UInt8) (peer : SockAddr) (src : UInt64) :
    (rdsStartRndzvReadSegs env ep rx hdr payload peer src).1
      = rdsStartRndzvRead env ep rx hdr (decodeSegs hdr.segCnt.toNat payload) peer src := by
  have hloop (effective : ℕ) : (rndzvReadsSegs rx.iov effective payload hdr.segCnt.toNat 0 0).1
      = rndzvReads rx.iov effective 0 (decodeSegs hdr.segCnt.toNat payload) := by
    have h := (rndzvReadsSegs_eq rx.iov effective payload hdr.segCnt.toNat 0 0).1
    rwa [Nat.zero_mul, List.drop_zero] at h
  unfold rdsStartRndzvReadSegs rdsStartRndzvRead
  cases rdsPendingAlloc env ep .rndzvRx rx.context (rdsRxFlags hdr) with
  | mk e p =>
    cases p with
    | none => rfl
    | some p =>
      dsimp only
      rw [hloop]

theorem rdsEnqueueUnexpSegs_fst (env : Env) (ep : Ep) (hdr : Hdr) (payload : List UInt8)
    (src : SockAddr) (srcFi : UInt64) (no : ℕ) (tagged : Bool) :
    (rdsEnqueueUnexpSegs env ep hdr payload src srcFi no tagged).1
      = rdsEnqueueUnexp env ep (Unexp.ofInbound hdr payload src srcFi no) tagged := by
  unfold rdsEnqueueUnexpSegs rdsEnqueueUnexp Ep.malloc Unexp.ofInbound
  dsimp only
  cases env.alloc ep.tick with
  | false => rfl
  | true =>
    dsimp only
    split
    · rfl
    · cases env.alloc (ep.tick + 1) with
      | false => rfl
      | true =>
        dsimp only
        rw [decodeSegs_eq_map]

/-- **It is the handler.** -/
theorem rdsHandleInboundSegs_fst (env : Env) (ep : Ep) (hdr : Hdr) (payload : List UInt8)
    (src : SockAddr) (srcFi : UInt64) :
    (rdsHandleInboundSegs env ep hdr payload src srcFi).1
      = rdsHandleInbound env ep hdr payload src srcFi := by
  unfold rdsHandleInboundSegs rdsHandleInbound
  split
  · rfl
  split
  · rfl
  split
  · rfl
  split
  · rfl
  unfold rdsHandleMessage Unexp.ofInbound
  dsimp only
  cases rdsMatchPosted { ep with arrivals := ep.arrivals + 1 } hdr srcFi hdr.tagged with
  | mk e found =>
    cases found with
    | none => exact rdsEnqueueUnexpSegs_fst env e hdr payload src srcFi ep.arrivals hdr.tagged
    | some rx =>
      unfold rdsDeliver
      dsimp only
      split
      · rfl
      · rw [rdsStartRndzvReadSegs_fst]

/-- **Of the array the loop looks at these segments only.** -/
theorem rndzvReadsSegs_congr (iov : List Iovec) (effective : ℕ) {payload payload' : List UInt8}
    {left i off : ℕ}
    (h : ∀ k ∈ (rndzvReadsSegs iov effective payload left i off).2,
      segAt payload' k = segAt payload k) :
    rndzvReadsSegs iov effective payload' left i off
      = rndzvReadsSegs iov effective payload left i off := by
  induction left generalizing i off with
  | zero => rfl
  | succ left ih =>
    rw [rndzvReadsSegs] at h ⊢
    rw [rndzvReadsSegs]
    split
    · rename_i hoff
      rw [if_pos hoff] at h
      obtain ⟨hi, hrest⟩ := List.forall_mem_cons.mp h
      rw [hi]
      dsimp only
      rw [ih hrest]
    · rfl

theorem rdsStartRndzvReadSegs_congr (env : Env) (ep : Ep) (rx : RxEntry) (hdr : Hdr)
    {payload payload' : List UInt8} (peer : SockAddr) (src : UInt64)
    (h : ∀ k ∈ (rdsStartRndzvReadSegs env ep rx hdr payload peer src).2,
      segAt payload' k = segAt payload k) :
    rdsStartRndzvReadSegs env ep rx hdr payload' peer src
      = rdsStartRndzvReadSegs env ep rx hdr payload peer src := by
  unfold rdsStartRndzvReadSegs at h ⊢
  split
  · rfl
  · rename_i halloc
    rw [halloc] at h
    dsimp only at h ⊢
    rw [rndzvReadsSegs_congr rx.iov _ h]

theorem rdsEnqueueUnexpSegs_congr (env : Env) (ep : Ep) {hdr : Hdr} (hop : hdr.op ≠ rdsOpEager)
    {payload payload' : List UInt8} (src : SockAddr) (srcFi : UInt64) (no : ℕ) (tagged : Bool)
    (h : ∀ k ∈ (rdsEnqueueUnexpSegs env ep hdr payload src srcFi no tagged).2,
      segAt payload' k = segAt payload k) :
    rdsEnqueueUnexpSegs env ep hdr payload' src srcFi no tagged
      = rdsEnqueueUnexpSegs env ep hdr payload src srcFi no tagged := by
  unfold rdsEnqueueUnexpSegs at h ⊢
  split
  · rfl
  · rename_i hrecord
    rw [hrecord] at h
    dsimp only at h ⊢
    rw [if_neg hop] at h ⊢
    rw [if_neg hop]
    split
    · rfl
    · rename_i hcopy
      rw [hcopy] at h
      dsimp only at h ⊢
      rw [List.map_congr_left h]

/-- **The queues, the pending operations and the completions are as they were.** -/
structure Ep.Untouched (ep ep' : Ep) : Prop where
  posted : ep'.posted = ep.posted
  unexp : ep'.unexp = ep.unexp
  pending : ep'.pending = ep.pending
  deferred : ep'.deferred = ep.deferred
  txCq : ep'.txCq = ep.txCq
  rxCq : ep'.rxCq = ep.rxCq

/-- **What it means for a call to be harmless**: every segment read or copied lies
inside the payload, as does the whole array whenever any of it is used, and an
operation outside the enumeration changes nothing. -/
structure InboundSafe (env : Env) (ep : Ep) (hdr : Hdr) (payload : List UInt8)
    (src : SockAddr) (srcFi : UInt64) : Prop where
  inside : ∀ i ∈ (rdsHandleInboundSegs env ep hdr payload src srcFi).2,
    (i + 1) * rdsSegSize ≤ payload.length
  whole : (rdsHandleInboundSegs env ep hdr payload src srcFi).2 ≠ [] →
    hdr.segCnt.toNat * rdsSegSize ≤ payload.length
  unknown : hdr.magic = rdsHdrMagic → ¬ hdr.Known →
    ep.Untouched (rdsHandleInbound env ep hdr payload src srcFi)

/-! ## The five operations -/

/-- The segments a started receive looks at belong to the array. -/
theorem lt_of_mem_rdsStartRndzvReadSegs {env : Env} {ep : Ep} {rx : RxEntry} {hdr : Hdr}
    {payload : List UInt8} {peer : SockAddr} {src : UInt64} {i : ℕ}
    (h : i ∈ (rdsStartRndzvReadSegs env ep rx hdr payload peer src).2) :
    i < hdr.segCnt.toNat := by
  unfold rdsStartRndzvReadSegs at h
  split at h
  · cases h
  · have := (rndzvReadsSegs_eq rx.iov _ payload hdr.segCnt.toNat 0 0).2 i h
    rwa [Nat.zero_add] at this

/-- The segments that are copied belong to the array, and an eager message has none. -/
theorem lt_of_mem_rdsEnqueueUnexpSegs {env : Env} {ep : Ep} {hdr : Hdr} {payload : List UInt8}
    {src : SockAddr} {srcFi : UInt64} {no : ℕ} {tagged : Bool} {i : ℕ}
    (h : i ∈ (rdsEnqueueUnexpSegs env ep hdr payload src srcFi no tagged).2) :
    hdr.op ≠ rdsOpEager ∧ i < hdr.segCnt.toNat := by
  unfold rdsEnqueueUnexpSegs at h
  split at h
  · cases h
  by_cases heager : hdr.op = rdsOpEager
  · rw [if_pos heager] at h
    cases h
  · rw [if_neg heager] at h
    split at h
    · cases h
    · exact ⟨heager, List.mem_range.mp h⟩

/-- **What is read or copied belongs to the array of a message that is taken for a
request**, and one with the operation of a request was measured. -/
theorem of_mem_rdsHandleInboundSegs {env : Env} {ep : Ep} {hdr : Hdr} {payload : List UInt8}
    {src : SockAddr} {srcFi : UInt64} {i : ℕ}
    (h : i ∈ (rdsHandleInboundSegs env ep hdr payload src srcFi).2) :
    (hdr.Known → hdr.segCnt.toNat * rdsSegSize ≤ payload.length) ∧ i < hdr.segCnt.toNat := by
  unfold rdsHandleInboundSegs at h
  split at h
  · cases h
  split at h
  · cases h
  split at h
  · cases h
  split at h
  · cases h
  rename_i hfin hring hshort
  have hrequest : hdr.op ≠ rdsOpEager ∧ i < hdr.segCnt.toNat := by
    dsimp only at h
    split at h
    · by_cases heager : hdr.op = rdsOpEager
      · rw [if_pos heager] at h
        cases h
      · rw [if_neg heager] at h
        exact ⟨heager, lt_of_mem_rdsStartRndzvReadSegs h⟩
    · exact lt_of_mem_rdsEnqueueUnexpSegs h
  refine ⟨fun hknown => ?_, hrequest.2⟩
  -- of the five operations only a request is left, and it is long enough
  have hrts : hdr.op = rdsOpRts := by
    simpa [Hdr.Known, hfin, hrequest.1, not_or.mp hring] using hknown
  exact not_lt.mp (fun hlt => hshort ⟨hrts, hlt⟩)

/-- **The five operations are safe.** -/
theorem InboundSafe.of_known {hdr : Hdr} (hknown : hdr.Known) (env : Env) (ep : Ep)
    (payload : List UInt8) (src : SockAddr) (srcFi : UInt64) :
    InboundSafe env ep hdr payload src srcFi where
  inside i hi := by
    obtain ⟨hwhole, hlt⟩ := of_mem_rdsHandleInboundSegs hi
    exact (Nat.mul_le_mul_right _ hlt).trans (hwhole hknown)
  whole hused := by
    obtain ⟨i, hi⟩ := List.exists_mem_of_ne_nil _ hused
    exact (of_mem_rdsHandleInboundSegs hi).1 hknown
  unknown _ hunknown := absurd hknown hunknown

/-! ## Any other byte -/

/-- The `FIN` that answers a message whose segments could not be stored is parked:
the socket asks to try again and the parking record can be allocated. -/
def rdsFinParked (env : Env) (tick : ℕ) (src : SockAddr) (id : UInt64) : Prop :=
  (∃ e, env.sendmsg tick (.dgram src (finHdr id).encode) = some e ∧ sockRet e = .err fiEagain)
    ∧ env.alloc (tick + 1) = true

/-- **A message is dropped for want of memory**: no posted receive takes it, and
either the record or the copy of its segments cannot be allocated. In the second
case the `FIN` that answers it must not end up on the deferred queue. -/
def rdsDrops (env : Env) (ep : Ep) (hdr : Hdr) (src : SockAddr) (srcFi : UInt64) : Prop :=
  rdsPostedFor ep hdr srcFi = none ∧ (env.alloc ep.tick = false
    ∨ (env.alloc (ep.tick + 1) = false ∧ ¬ rdsFinParked env (ep.tick + 2) src hdr.id))

/-- An unknown operation is handled as a message. -/
theorem rdsHandleInbound_of_unknown (env : Env) (ep : Ep) {hdr : Hdr} (payload : List UInt8)
    (src : SockAddr) (srcFi : UInt64) (hmagic : hdr.magic = rdsHdrMagic)
    (hunknown : ¬ hdr.Known) :
    rdsHandleInbound env ep hdr payload src srcFi
      = rdsHandleMessage env ep (Unexp.ofInbound hdr payload src srcFi ep.arrivals) := by
  simp only [Hdr.Known, not_or] at hunknown
  obtain ⟨-, hrts, hfin, hreq, hack⟩ := hunknown
  simp [rdsHandleInbound, hmagic, hrts, hfin, hreq, hack]

/-- **A message that is dropped is neither read nor copied.** -/
theorem segs_of_drops (env : Env) (ep : Ep) {hdr : Hdr} (payload : List UInt8)
    (src : SockAddr) (srcFi : UInt64) (hmagic : hdr.magic = rdsHdrMagic)
    (hunknown : ¬ hdr.Known) (hdrops : rdsDrops env ep hdr src srcFi) :
    (rdsHandleInboundSegs env ep hdr payload src srcFi).2 = [] := by
  simp only [Hdr.Known, not_or] at hunknown
  obtain ⟨heager, hrts, hfin, hreq, hack⟩ := hunknown
  have hnone : (ep.posted hdr.tagged).find?
      (fun rx => rdsMatches hdr.tagged rx srcFi hdr.tag) = none := hdrops.1
  unfold rdsHandleInboundSegs rdsMatchPosted
  rw [if_neg (not_not.mpr hmagic), if_neg hfin, if_neg (not_or.mpr ⟨hreq, hack⟩),
    if_neg (fun h => hrts h.1)]
  dsimp only
  rw [hnone]
  unfold rdsEnqueueUnexpSegs Ep.malloc
  dsimp only
  obtain hrecord | ⟨hcopy, -⟩ := hdrops.2
  · rw [hrecord]
  · cases env.alloc ep.tick with
    | false => rfl
    | true =>
      dsimp only
      rw [if_neg heager, hcopy]

/-- A message that takes a posted receive changes the posted list. -/
theorem posted_ne_of_found {ep ep' : Ep} {hdr : Hdr} {srcFi : UInt64} {rx : RxEntry}
    (hfound : rdsPostedFor ep hdr srcFi = some rx)
    (h : ep'.posted hdr.tagged = (ep.posted hdr.tagged).eraseP
      (fun rx => rdsMatches hdr.tagged rx srcFi hdr.tag)) : ¬ ep.Untouched ep' := by
  intro hsame
  rw [hsame.posted] at h
  have hlen := congrArg List.length h
  rw [List.length_eraseP_of_mem (List.mem_of_find?_eq_some hfound)
    (List.find?_some hfound)] at hlen
  have hpos := List.length_pos_of_mem (List.mem_of_find?_eq_some hfound)
  omega

/-- A `FIN` leaves everything alone unless it is parked. -/
theorem untouched_sendFin_iff (env : Env) (ep : Ep) (peer : SockAddr) (id : UInt64) :
    ep.Untouched (rdsSendFin env ep peer id) ↔ ¬ rdsFinParked env ep.tick peer id := by
  unfold rdsFinParked rdsSendFin rdsSendFinRaw Ep.sendDgram Ep.sendmsg
  cases hsend : env.sendmsg ep.tick (.dgram peer (finHdr id).encode) with
  | none => simpa using ⟨rfl, rfl, rfl, rfl, rfl, rfl⟩
  | some e =>
    obtain ⟨e', he'⟩ := exists_sockRet e
    dsimp only
    rw [he']
    dsimp only
    by_cases heagain : e' = fiEagain
    · rw [if_pos heagain]
      unfold rdsDeferFin Ep.malloc
      cases halloc : env.alloc (ep.tick + 1) with
      | false => simpa [Ep.log] using ⟨rfl, rfl, rfl, rfl, rfl, rfl⟩
      | true =>
        refine iff_of_false (fun hsame => ?_) (not_not_intro ⟨⟨e, rfl, by rw [he', heagain]⟩, rfl⟩)
        have hlen := congrArg List.length hsame.deferred
        simp at hlen
    · rw [if_neg heagain]
      refine iff_of_true ⟨rfl, rfl, rfl, rfl, rfl, rfl⟩ ?_
      rintro ⟨⟨_, hsome, hret⟩, -⟩
      cases hsome
      rw [he'] at hret
      exact heagain (Ret.err.inj hret)

/-- **An unknown operation changes nothing exactly if it is dropped.** -/
theorem untouched_of_unknown_iff (env : Env) (ep : Ep) {hdr : Hdr} (payload : List UInt8)
    (src : SockAddr) (srcFi : UInt64) (hmagic : hdr.magic = rdsHdrMagic)
    (hunknown : ¬ hdr.Known) :
    ep.Untouched (rdsHandleInbound env ep hdr payload src srcFi)
      ↔ rdsDrops env ep hdr src srcFi := by
  have heager : hdr.op ≠ rdsOpEager := fun h => hunknown (.inl h)
  have hrts : hdr.op ≠ rdsOpRts := fun h => hunknown (.inr (.inl h))
  rw [rdsHandleInbound_of_unknown env ep payload src srcFi hmagic hunknown]
  unfold rdsDrops
  cases hfound : rdsPostedFor ep hdr srcFi with
  | some rx =>
    refine iff_of_false (posted_ne_of_found hfound ?_) (by simp)
    -- what the delivery sets off leaves the posted list alone
    have hposted := (Ep.Unmatched.deliver env { ep with
      arrivals := ep.arrivals + 1
      posted := Function.update ep.posted hdr.tagged ((ep.posted hdr.tagged).eraseP
        (fun rx => rdsMatches hdr.tagged rx srcFi hdr.tag)) } rx
      (Unexp.ofInbound hdr payload src srcFi ep.arrivals)).posted
    rw [rdsHandleMessage_found env (m := Unexp.ofInbound hdr payload src srcFi ep.arrivals) hfound]
    exact (congrFun hposted hdr.tagged).trans (Function.update_self _ _ _)
  | none =>
    rw [rdsHandleMessage_none env (m := Unexp.ofInbound hdr payload src srcFi ep.arrivals) hfound]
    set e : Ep := { ep with arrivals := ep.arrivals + 1 } with he
    set m := Unexp.ofInbound hdr payload src srcFi ep.arrivals with hm
    obtain ⟨hrecord, h⟩ | ⟨-, hop, -⟩ | ⟨hrecord, -, hcopy, h⟩ | ⟨hrecord, -, hcopy, h⟩ :=
      rdsEnqueueUnexp_cases env e m m.hdr.tagged
    · rw [h, if_neg (show m.hdr.op ≠ rdsOpRts from hrts)]
      exact iff_of_true ⟨rfl, rfl, rfl, rfl, rfl, rfl⟩ ⟨rfl, .inl hrecord⟩
    · exact absurd hop heager
    · -- the answer may be parked
      have hfin := untouched_sendFin_iff env { e with tick := e.tick + 2 } src hdr.id
      rw [h]
      refine ⟨fun hsame => ⟨rfl, .inr ⟨hcopy, hfin.mp { hsame with }⟩⟩, fun hdrops => ?_⟩
      obtain hnot | ⟨-, hnot⟩ := hdrops.2
      · rw [show env.alloc ep.tick = true from hrecord] at hnot
        cases hnot
      · exact { hfin.mpr hnot with }
    · rw [h]
      refine iff_of_false (fun hsame => ?_) (fun hdrops => ?_)
      · have hlen := congrArg (fun f => (f hdr.tagged).length) hsame.unexp
        simp [Ep.linkUnexp, he, hm, Unexp.ofInbound] at hlen
      · obtain hnot | ⟨hnot, -⟩ := hdrops.2
        · rw [show env.alloc ep.tick = true from hrecord] at hnot
          cases hnot
        · rw [show env.alloc (ep.tick + 1) = true from hcopy] at hnot
          cases hnot

/-- **A call is harmless exactly if** its magic is wrong, its operation is one of
the five, or it is dropped for want of memory. What leaves the endpoint as the handler
does is also what returns the segments. -/
theorem inbound_safe_iff (env : Env) (ep : Ep) (hdr : Hdr) (payload : List UInt8)
    (src : SockAddr) (srcFi : UInt64) :
    (rdsHandleInboundSegs env ep hdr payload src srcFi).1
        = rdsHandleInbound env ep hdr payload src srcFi
      ∧ (InboundSafe env ep hdr payload src srcFi
        ↔ (hdr.magic = rdsHdrMagic → hdr.Known ∨ rdsDrops env ep hdr src srcFi)) := by
  refine ⟨rdsHandleInboundSegs_fst env ep hdr payload src srcFi, ?_⟩
  by_cases hknown : hdr.Known
  · exact iff_of_true (.of_known hknown env ep payload src srcFi) (fun _ => .inl hknown)
  by_cases hmagic : hdr.magic = rdsHdrMagic
  · have hiff := untouched_of_unknown_iff env ep payload src srcFi hmagic hknown
    refine ⟨fun hsafe _ => .inr (hiff.mp (hsafe.unknown hmagic hknown)), fun h => ?_⟩
    have hdrops := (h hmagic).resolve_left hknown
    have hnone := segs_of_drops env ep payload src srcFi hmagic hknown hdrops
    exact ⟨by simp [hnone], by simp [hnone], fun _ _ => hiff.mpr hdrops⟩
  · have hnone : (rdsHandleInboundSegs env ep hdr payload src srcFi).2 = [] := by
      simp [rdsHandleInboundSegs, hmagic]
    exact iff_of_true ⟨by simp [hnone], by simp [hnone], fun h => absurd h hmagic⟩
      (fun h => absurd h hmagic)

/-- **A byte outside the enumeration is taken for a request nobody measured.** A bare
header with operation `9` and one segment, on an endpoint just opened: one segment
is copied from a payload of no bytes, and the unexpected list grows. -/
theorem unknown_op_reads_past_payload :
    let ep := Ep.init (EpCfg.standard false [10, 20] 10) (Domain.opened false (some 3) 0 0)
    let env := Env.calm (fun _ _ => .error fiEnomem)
    let hdr : Hdr := { Hdr.blank 9 with segCnt := 1 }
    (rdsHandleInboundSegs env ep hdr [] 20 1).2 = [0]
      ∧ ((rdsHandleInbound env ep hdr [] 20 1).unexp false).length = 1
      ∧ ¬ InboundSafe env ep hdr [] 20 1 := by
  refine ⟨by decide +kernel, by decide +kernel, fun hsafe => ?_⟩
  exact absurd (hsafe.inside 0 (by decide +kernel)) (by decide)
