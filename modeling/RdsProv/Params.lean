import RdsProv.Endpoint

/-!
# Parameters

`RDS_INI` reads the provider's parameters from the environment. What is out of
range is clamped or ignored, so an endpoint can rely on the values: the eager
threshold leaves room for a header in one datagram, a ring has a power of two of
slots that can hold something, and the number of rendezvous sends in flight fits
its counter. The sizes of the socket buffers only travel on to `setsockopt` and are
left out.
-/

/-- What the environment sets; an `int` is all `fi_param_get_int` returns. -/
structure Params where
  eagerSize : Option Int32 := none
  eagerRdma : Option Bool := none
  ringSlots : Option Int32 := none
  ringSlotSize : Option Int32 := none
  ringMaxPeers : Option Int32 := none
  mrCache : Option Bool := none
  rndzvInflight : Option Int32 := none

/-- The provider's parameters as `RDS_INI` leaves them. -/
structure Tunables where
  eagerSize : ℕ
  eagerRdma : Bool
  geom : RingGeom
  ringMaxPeers : ℕ
  mrCacheEnable : Bool
  rndzvMaxInflight : ℕ

/-- The conversion of an `int` to `size_t`. -/
def sizeOfInt (v : Int32) : UInt64 := UInt64.ofNat (v.toInt % 2 ^ 64).toNat

/-- `rds_pow2`. -/
def rdsPow2 (v : UInt64) : Bool := v != 0 && v &&& (v - 1) == 0

/-- A non-negative `int` keeps its value, a negative one becomes huge. -/
theorem toNat_sizeOfInt (v : Int32) :
    (sizeOfInt v).toNat < 2 ^ 31 ∨ 2 ^ 64 - 2 ^ 31 ≤ (sizeOfInt v).toNat := by
  have hlt := v.toInt_lt
  have hle := v.le_toInt
  unfold sizeOfInt
  rw [UInt64.toNat_ofNat']
  omega

theorem exists_pow_of_rdsPow2 {v : UInt64} (h : rdsPow2 v = true) : ∃ k, v.toNat = 2 ^ k := by
  simp only [rdsPow2, Bool.and_eq_true, bne_iff_ne, ne_eq, beq_iff_eq] at h
  obtain ⟨hne, hand⟩ := h
  have hpos : v.toNat ≠ 0 := fun h0 => hne (UInt64.toNat_inj.mp h0)
  have hsub : (v - 1).toNat = v.toNat - 1 := by
    have hle : (1 : UInt64) ≤ v := UInt64.le_iff_toNat_le.mpr (Nat.pos_of_ne_zero hpos)
    rw [UInt64.toNat_sub_of_le _ _ hle]
    rfl
  refine (Nat.and_sub_one_eq_zero_iff_isPowerOfTwo hpos).mp ?_
  rw [← hsub, ← UInt64.toNat_and, hand]
  rfl

/-- A number of slots that `RDS_INI` accepts survives the conversion to 32 bits. -/
theorem exists_pow_of_ringSlots {v : Int32} (h : rdsPow2 (sizeOfInt v) = true) :
    ∃ k, (sizeOfInt v).toUInt32.toNat = 2 ^ k := by
  obtain ⟨k, hk⟩ := exists_pow_of_rdsPow2 h
  have hlt : (sizeOfInt v).toNat < 2 ^ 64 := (sizeOfInt v).toNat_lt
  refine ⟨k, ?_⟩
  rw [UInt64.toNat_toUInt32, hk]
  obtain hsmall | hhuge := toNat_sizeOfInt v
  · rw [hk] at hsmall
    exact Nat.mod_eq_of_lt (hsmall.trans (by decide))
  · rw [hk] at hlt hhuge
    have hle : k ≤ 63 := Nat.le_of_lt_succ ((Nat.pow_lt_pow_iff_right (by decide)).mp hlt)
    have hpow : 2 ^ k ≤ 2 ^ 63 := Nat.pow_le_pow_right (by decide) hle
    exact absurd (hhuge.trans hpow) (by decide)

/-- The geometry `RDS_INI` settles on: each of the two numbers is taken if it is
acceptable and keeps its default otherwise. -/
def ringGeomOf (slots slotSize : Option Int32) : RingGeom :=
  let slots : { s : UInt32 // ∃ k, s.toNat = 2 ^ k } := match slots with
    | none => ⟨RingGeom.standard.slots, RingGeom.standard.slots_pow2⟩
    | some v =>
      if h : rdsPow2 (sizeOfInt v) = true then
        ⟨(sizeOfInt v).toUInt32, exists_pow_of_ringSlots h⟩
      else ⟨RingGeom.standard.slots, RingGeom.standard.slots_pow2⟩
  let slotSize : { s : UInt32 // rdsRingOverhead + 8 ≤ s.toNat } := match slotSize with
    | none => ⟨RingGeom.standard.slotSize, RingGeom.standard.slotSize_min⟩
    | some v =>
      if h : (rdsRingOverhead + 8 : ℤ) ≤ v.toInt then
        ⟨(sizeOfInt v).toUInt32, by
          have hlt := v.toInt_lt
          rw [UInt64.toNat_toUInt32, sizeOfInt, UInt64.toNat_ofNat']
          omega⟩
      else ⟨RingGeom.standard.slotSize, RingGeom.standard.slotSize_min⟩
  ⟨slots, slotSize, slots.2, slotSize.2⟩

/-- `RDS_INI`. -/
def rdsIni (p : Params) : Tunables where
  eagerSize := match p.eagerSize with
    | none => 65536
    | some v =>
      if v.toInt < 0 then 0
      else if rdsMaxEagerSize < v.toInt then rdsMaxEagerSize
      else (sizeOfInt v).toNat
  eagerRdma := p.eagerRdma.getD false
  geom := ringGeomOf p.ringSlots p.ringSlotSize
  ringMaxPeers := match p.ringMaxPeers with
    | none => 256
    | some v => if 0 < v.toInt then (sizeOfInt v).toNat else 256
  mrCacheEnable := p.mrCache.getD true
  rndzvMaxInflight := match p.rndzvInflight with
    | none => 256
    | some v => if 0 < v.toInt then (sizeOfInt v).toNat else 256

/-- **The configuration of an endpoint has the parameters.** -/
structure Tunables.Configures (t : Tunables) (cfg : EpCfg) : Prop where
  eagerSize : cfg.eagerSize = t.eagerSize
  eagerRdma : cfg.eagerRdma = t.eagerRdma
  geom : cfg.geom = t.geom
  ringMaxPeers : cfg.ringMaxPeers = t.ringMaxPeers
  rndzvMaxInflight : cfg.rndzvMaxInflight = t.rndzvMaxInflight

/-- The parameters an endpoint left at its defaults has. -/
theorem configures_standard (eagerRdma : Bool) (av : List SockAddr) (self : SockAddr) :
    (rdsIni { eagerRdma := some eagerRdma }).Configures (EpCfg.standard eagerRdma av self) :=
  ⟨rfl, rfl, rfl, rfl, rfl⟩

/-- A positive `int` is its value. -/
theorem toNat_sizeOfInt_of_nonneg {v : Int32} (h : 0 ≤ v.toInt) :
    ((sizeOfInt v).toNat : ℤ) = v.toInt := by
  have hlt := v.toInt_lt
  unfold sizeOfInt
  rw [UInt64.toNat_ofNat']
  omega

theorem rdsIni_eagerSize_le (p : Params) : (rdsIni p).eagerSize ≤ rdsMaxEagerSize := by
  unfold rdsIni
  dsimp only
  split
  · decide
  · rename_i v _
    split
    · exact Nat.zero_le _
    · rename_i hneg
      have hval := toNat_sizeOfInt_of_nonneg (not_lt.mp hneg)
      split
      · exact le_rfl
      · omega

theorem rdsIni_rndzvMaxInflight_lt (p : Params) : (rdsIni p).rndzvMaxInflight < 2 ^ 31 := by
  unfold rdsIni
  dsimp only
  split
  · decide
  · rename_i v _
    split
    · rename_i hpos
      have hval := toNat_sizeOfInt_of_nonneg hpos.le
      have hlt := v.toInt_lt
      omega
    · decide

/-- At least one rendezvous send may be in flight. -/
theorem rdsIni_rndzvMaxInflight_pos (p : Params) : 0 < (rdsIni p).rndzvMaxInflight := by
  unfold rdsIni
  dsimp only
  split
  · decide
  · rename_i v _
    split
    · rename_i hpos
      have hval := toNat_sizeOfInt_of_nonneg hpos.le
      omega
    · decide
