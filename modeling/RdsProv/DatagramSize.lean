import RdsProv.AllOrNothing
import RdsProv.Params

/-!
# Datagrams and receive buffers

The receiver takes a datagram into a buffer of `rx_buf_size` bytes and drops what does
not fit. The size allows for an eager message up to `eager_size` and for a request that
describes one contiguous message, a segment per mebibyte. The sender has other bounds:
with the ring on, messages up to the payload of a slot go out as datagrams when the ring
cannot take them, and a source of several entries may need a segment more for each.

`datagram_fits_iff` says exactly which sends stay within the buffer; the sizes of the
message and its pieces decide, whatever the state of the destination.
-/

/-- `RDS_RTS_MAX_PAYLOAD`. -/
abbrev rdsRtsMaxPayload : ℕ := (rdsMaxMsgSize / rdsKernelSegMax + 1) * rdsSegSize

/-- `rx_buf_size`. -/
def EpCfg.rxBufSize (cfg : EpCfg) : ℕ := rdsHdrSize + max cfg.eagerSize rdsRtsMaxPayload

/-- A datagram fits the buffer of the endpoint it is for and one kernel message. -/
def Dgram.Fits (peer : EpCfg) (d : Dgram) : Prop :=
  d.bytes.length ≤ peer.rxBufSize ∧ d.bytes.length ≤ rdsKernelSegMax

/-- What a send puts behind the header of its datagram: the message, or a description of
its source. -/
def EpCfg.dgramPayload (cfg : EpCfg) (iov : List Iovec) : ℕ :=
  if ofiTotalIovLen iov ≤ cfg.eagerLimit then ofiTotalIovLen iov else rdsNseg iov * rdsSegSize

/-- With parameters the provider accepts, the buffer is the bound that matters. -/
theorem Dgram.fits_iff {p : Params} {peer : EpCfg} (hpeer : (rdsIni p).Configures peer)
    {d : Dgram} {n : ℕ} (hlen : d.bytes.length = rdsHdrSize + n) :
    d.Fits peer ↔ n ≤ max peer.eagerSize rdsRtsMaxPayload := by
  have hle : peer.eagerSize ≤ rdsMaxEagerSize := hpeer.eagerSize ▸ rdsIni_eagerSize_le p
  have hmax : max peer.eagerSize rdsRtsMaxPayload ≤ rdsMaxEagerSize := max_le hle (by decide)
  unfold Dgram.Fits EpCfg.rxBufSize
  rw [hlen]
  constructor
  · intro h
    exact Nat.add_le_add_iff_left.mp h.1
  · intro h
    refine ⟨Nat.add_le_add_left h _, ?_⟩
    have : rdsHdrSize + rdsMaxEagerSize ≤ rdsKernelSegMax := by decide
    omega

/-- A failed send puts no message on the wire. -/
theorem Ep.SendQuiet.no_message {inp : RingInput} {ep ep' : Ep} (h : ep.SendQuiet inp ep')
    {l : List Dgram} (hl : ep'.wire = ep.wire ++ l) {x : Dgram} (hx : x ∈ l) :
    x.isMessage = false := by
  obtain ⟨l', hl', hctrl⟩ := h.wire
  rw [hl'] at hl
  rw [← List.append_cancel_left hl] at hx
  unfold Dgram.isMessage
  obtain hop | hop := hctrl x hx
  · rw [hop]
    decide
  · rw [hop]
    decide

/-- The only message a send can have put on the wire is its own. -/
theorem Ep.Ships.eq_of_message {inp : RingInput} {ep ep' : Ep} {destAddr : UInt64} {op : UInt8}
    {d : Dgram} {payload : List UInt8} (h : ep.Ships inp ep' destAddr op d payload)
    {l : List Dgram} (hl : ep'.wire = ep.wire ++ l) {x : Dgram} (hx : x ∈ l)
    (hmsg : x.isMessage = true) : x = d := by
  have hno {e : Ep} (hquiet : ep.RingQuiet inp e) {l : List Dgram} (hl : e.wire = ep.wire ++ l)
      (hx : x ∈ l) : False := by
    rw [hquiet.sendQuiet.no_message hl hx] at hmsg
    cases hmsg
  obtain ⟨e, hquiet, rfl⟩ | ⟨-, e, p, flags, tag, data, hquiet, -, -, -, -, -, heq, -⟩ := h
  · obtain ⟨l', hl', -⟩ := hquiet.wire
    have hl : e.wire ++ [d] = ep.wire ++ l := hl
    rw [hl', List.append_assoc] at hl
    rw [← List.append_cancel_left hl] at hx
    obtain hx | hx := List.mem_append.mp hx
    · exact (hno hquiet hl' hx).elim
    · exact List.mem_singleton.mp hx
  · rw [heq] at hl
    exact (hno hquiet hl hx).elim

/-- **Which datagrams fit the receiver.** Let both sides have the same accepted parameters.
A message or request that `rds_generic_send` puts on the socket fits the peer's buffer and
one kernel message if and only if its payload is at most the larger of `eager_size` and
`RDS_RTS_MAX_PAYLOAD`; what `rds_generic_inject` puts there always fits. -/
theorem datagram_fits_iff (p : Params) (ep : Ep) (peer : EpCfg)
    (hcfg : (rdsIni p).Configures ep.cfg) (hpeer : (rdsIni p).Configures peer) (env : Env) :
    (∀ iov destAddr tag data context flags tagged l d,
        (rdsGenericSend env ep iov destAddr tag data context flags tagged).1.wire = ep.wire ++ l →
        d ∈ l → d.isMessage = true →
        (d.Fits peer ↔ ep.cfg.dgramPayload iov ≤ max ep.cfg.eagerSize rdsRtsMaxPayload))
      ∧ ∀ buf len destAddr tag tagged l d,
        (rdsGenericInject env ep buf len destAddr tag tagged).1.wire = ep.wire ++ l →
        d ∈ l → d.isMessage = true → d.Fits peer := by
  have hsize : ep.cfg.eagerSize = peer.eagerSize := hcfg.eagerSize.trans hpeer.eagerSize.symm
  constructor
  · intro iov destAddr tag data context flags tagged l d hl hd hmsg
    unfold EpCfg.dgramPayload
    obtain ⟨-, hquiet⟩ | ⟨-, hsmall, dest, e, -, hships, heq⟩
      | ⟨-, hbig, dest, e₁, e₂, genComp, segs, mrs, -, hseg, -, hreg, hships, heq⟩ :=
      rdsGenericSend_effects env ep iov destAddr tag data context flags tagged
        (fun _ => RingInput.any_expires destAddr) rfl
    · rw [hquiet.no_message hl hd] at hmsg
      cases hmsg
    · rw [if_pos hsmall, hsize]
      rw [heq] at hl
      rw [hships.eq_of_message hl hd hmsg]
      refine Dgram.fits_iff hpeer ?_
      rw [List.length_append, Hdr.encode_length, length_gather]
    · rw [if_neg (not_le.mpr hbig), hsize]
      rw [heq] at hl
      have hwire : ep.wire = e₁.wire := by rw [hreg.eq]
      rw [hships.eq_of_message (hwire ▸ hl) hd hmsg]
      refine Dgram.fits_iff hpeer ?_
      rw [List.length_append, Hdr.encode_length, encodeSegs_length, hseg]
  · intro buf len destAddr tag tagged l d hl hd hmsg
    obtain ⟨-, hquiet⟩ | ⟨-, hlen, dest, e, -, hships, heq⟩ :=
      rdsGenericInject_effects env ep buf len destAddr tag tagged
        (fun _ => RingInput.any_expires destAddr) rfl
    · rw [hquiet.no_message hl hd] at hmsg
      cases hmsg
    · rw [heq] at hl
      rw [hships.eq_of_message hl hd hmsg]
      have hfits := Dgram.fits_iff (n := len) hpeer (d := ⟨ep.cfg.self, dest,
        (eagerHdr tagged 0 tag 0 len).encode ++ gather env.mem [⟨buf, len⟩]⟩) (by
          rw [List.length_append, Hdr.encode_length, length_gather]
          simp [ofiTotalIovLen])
      exact hfits.mpr ((hlen.trans hsize.le).trans (le_max_left _ _))

/-! ## Two configurations -/

/-- A small message that does not go over the ring is put on the wire. -/
theorem rdsGenericSend_wire (env : Env) (ep : Ep) (iov : List Iovec) (dest : SockAddr)
    (destAddr tag data : UInt64) (context : ℕ) (flags : UInt64) (tagged : Bool) (t : ℕ)
    (hcnt : iov.length ≤ rdsIovLimit) (hmax : ofiTotalIovLen iov ≤ rdsMaxMsgSize)
    (hdest : rdsAvAddr ep.cfg destAddr = some dest)
    (hring : (if ep.cfg.eagerRdma ∧ ofiTotalIovLen iov ≤ ep.cfg.geom.payload then
        rdsRingSend env ep (ofiCopyFromIov env.mem (ofiTotalIovLen iov) iov 0) destAddr tag data
          context flags tagged (hasFlag (ep.cfg.txOpFlags ||| flags) fiCompletion) rdsOpEager
      else (ep, .err fiEnosys)) = ({ ep with tick := t }, .err fiEnosys))
    (hsmall : ofiTotalIovLen iov ≤ ep.cfg.eagerLimit) (hsend : ∀ op, env.sendmsg t op = none) :
    (rdsGenericSend env ep iov destAddr tag data context flags tagged).1.wire
      = ep.wire ++ [⟨ep.cfg.self, dest,
        (eagerHdr tagged flags tag data (ofiTotalIovLen iov)).encode ++ gather env.mem iov⟩] := by
  unfold rdsGenericSend
  rw [if_neg (not_lt.mpr hcnt)]
  dsimp only
  rw [if_neg (not_lt.mpr hmax), hdest]
  dsimp only
  rw [hring]
  dsimp only
  unfold EpCfg.eagerLimit at hsmall
  rw [if_neg (not_not.mpr rfl), if_pos hsmall]
  unfold rdsSendEager Ep.sendDgram Ep.sendmsg
  dsimp only
  rw [hsend]
  dsimp only
  unfold rdsCqWriteTx
  split_ifs <;> rfl

/-- A message at the default threshold goes out as one datagram, and it fits. -/
theorem largest_eager_message_fits :
    let cfg := EpCfg.standard false [10, 20] 10
    let ep := Ep.init cfg (.opened true (some 3) 1024 268435456)
    let env := Env.calm (fun _ _ => .ok 1)
    ∃ d, (rdsGenericSend env ep [⟨4096, 65536⟩] 1 0 0 7 0 false).1.wire = ep.wire ++ [d]
      ∧ d.isMessage = true ∧ d.Fits cfg := by
  intro cfg ep env
  have hwire := rdsGenericSend_wire env ep [⟨4096, 65536⟩] 20 1 0 0 7 0 false 0 (by decide)
    (by decide) rfl rfl (by decide) (fun _ => rfl)
  have hmsg : Dgram.isMessage ⟨10, 20, (eagerHdr false 0 0 0 65536).encode
      ++ gather env.mem [⟨4096, 65536⟩]⟩ = true := by
    unfold Dgram.isMessage Dgram.hdr
    rw [Hdr.decode_encode]
    rfl
  refine ⟨_, hwire, hmsg, ?_⟩
  have hfits := (datagram_fits_iff { eagerRdma := some false } ep cfg
    (configures_standard false _ _) (configures_standard false _ _) env).1
    [⟨4096, 65536⟩] 1 0 0 7 0 false _ _ hwire (List.mem_singleton.mpr rfl) hmsg
  refine hfits.mpr ?_
  decide

/-- Parameters with the ring on, large slots and no eager threshold. -/
def largeSlots : Params :=
  { eagerSize := some 0, eagerRdma := some true, ringSlotSize := some 8192 }

/-- An endpoint with these parameters. -/
def largeSlotsCfg : EpCfg :=
  { EpCfg.standard true [10, 20] 10 with
    eagerSize := (rdsIni largeSlots).eagerSize
    geom := (rdsIni largeSlots).geom }

/-- **A message that the ring cannot take does not fit the buffer.** No record can be
allocated for the destination, so a message of 8000 bytes falls back to a datagram; the
receiver has room for a payload of 6168. -/
theorem fallback_datagram_too_large :
    let env : Env := { Env.calm (fun _ _ => .ok 1) with alloc := fun _ => false }
    let ep := Ep.init largeSlotsCfg (.opened true (some 3) 1024 268435456)
    (rdsIni largeSlots).Configures largeSlotsCfg
      ∧ ∃ d, (rdsGenericSend env ep [⟨4096, 8000⟩] 1 0 0 7 0 false).1.wire = ep.wire ++ [d]
        ∧ d.isMessage = true ∧ ¬ d.Fits largeSlotsCfg := by
  intro env ep
  have hpayload : ep.cfg.geom.payload = 8156 := by decide
  have hring (payload : List UInt8) (hlen : payload.length = 8000) :
      rdsRingSend env ep payload 1 0 0 7 0 false true rdsOpEager
        = ({ ep with tick := 4 }, .err fiEnosys) := by
    unfold rdsRingSend
    rw [if_neg (by decide), if_neg (by rw [hpayload, hlen]; decide)]
    rfl
  have hcopy : (ofiCopyFromIov env.mem 8000 [⟨4096, 8000⟩] 0).length = 8000 := by
    show (ofiCopyFromIov env.mem (ofiTotalIovLen [⟨4096, 8000⟩]) [⟨4096, 8000⟩] 0).length = _
    rw [ofiCopyFromIov_eq, length_gather]
    rfl
  have hwire := rdsGenericSend_wire env ep [⟨4096, 8000⟩] 20 1 0 0 7 0 false 4 (by decide)
    (by decide) rfl ((if_pos (by decide)).trans (hring _ hcopy)) (by decide) (fun _ => rfl)
  refine ⟨⟨rfl, rfl, rfl, rfl, rfl⟩, _, hwire, ?_, ?_⟩
  · unfold Dgram.isMessage Dgram.hdr
    rw [Hdr.decode_encode]
    rfl
  · rintro ⟨hle, -⟩
    rw [List.length_append, Hdr.encode_length, length_gather] at hle
    exact absurd hle (by decide)
