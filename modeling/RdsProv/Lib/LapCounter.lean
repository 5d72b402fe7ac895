import Mathlib.Data.PNat.Basic

/-!
# Counters that go round a ring

The producer and the consumer of a ring count slots. The place of the slot a counter
stands before is the remainder by the number of slots; the lap is the quotient, and a slot
is *stamped* with its lap so that what is left from an earlier lap is told apart from what
is new.

The counter is a 64-bit word and the stamp a 32-bit word, so both wrap. If the number of
slots is a power of two that fits a 32-bit word, neither wrap shows: place and stamp are
those of the number the counter stands for (`lapPlace_ofNat`, `lapStamp_ofNat`), and two
slots at one place have different stamps unless they are a multiple of `2 ^ 32` laps apart
(`lapStamp_eq_iff`).
-/

/-- The place of the slot a counter stands before. -/
def lapPlace (slots : UInt32) (n : UInt64) : ℕ := (n % slots.toUInt64).toNat

/-- The stamp of the slot a counter stands before. -/
def lapStamp (slots : UInt32) (n : UInt64) : UInt32 := (n / slots.toUInt64).toUInt32 + 1

section

variable {slots : UInt32} {k : ℕ} (hslots : slots.toNat = 2 ^ k)

include hslots

/-- The exponent is less than the width of the word. -/
theorem lt_of_toNat_eq_pow : k < 32 := by
  have hlt := slots.toNat_lt
  rw [hslots] at hlt
  exact (Nat.pow_lt_pow_iff_right Nat.one_lt_two).mp hlt

/-- The place is that of the number the counter stands for. -/
theorem lapPlace_ofNat (n : ℕ) : lapPlace slots (UInt64.ofNat n) = n % slots.toNat := by
  have hdvd : slots.toNat ∣ 2 ^ 64 :=
    hslots ▸ Nat.pow_dvd_pow 2 (by have := lt_of_toNat_eq_pow hslots; omega)
  rw [lapPlace, UInt64.toNat_mod, UInt32.toNat_toUInt64, UInt64.toNat_ofNat',
    Nat.mod_mod_of_dvd n hdvd]

/-- The stamp is that of the number the counter stands for. -/
theorem lapStamp_ofNat (n : ℕ) :
    lapStamp slots (UInt64.ofNat n) = UInt32.ofNat (n / slots.toNat + 1) := by
  have hk := lt_of_toNat_eq_pow hslots
  have hsplit : 2 ^ 64 = slots.toNat * 2 ^ (64 - k) := by
    rw [hslots, ← Nat.pow_add]
    exact congrArg _ (by omega)
  have hdvd : 2 ^ 32 ∣ 2 ^ (64 - k) := Nat.pow_dvd_pow 2 (by omega)
  have hlap : (UInt64.ofNat n / slots.toUInt64).toUInt32 = UInt32.ofNat (n / slots.toNat) := by
    refine UInt32.toNat_inj.mp ?_
    rw [UInt64.toNat_toUInt32, UInt64.toNat_div, UInt32.toNat_toUInt64, UInt64.toNat_ofNat',
      UInt32.toNat_ofNat', hsplit, Nat.mod_mul_right_div_self, Nat.mod_mod_of_dvd _ hdvd]
  rw [lapStamp, hlap, UInt32.ofNat_add]
  rfl

/-- **Stamps tell laps apart**, up to the width of the stamp. -/
theorem lapStamp_eq_iff (m n : ℕ) :
    lapStamp slots (UInt64.ofNat m) = lapStamp slots (UInt64.ofNat n)
      ↔ m / slots.toNat % 2 ^ 32 = n / slots.toNat % 2 ^ 32 := by
  rw [lapStamp_ofNat hslots, lapStamp_ofNat hslots, ← UInt32.toNat_inj, UInt32.toNat_ofNat',
    UInt32.toNat_ofNat']
  omega

/-- One lap on, a counter is back at its place and asks for another stamp. -/
theorem lapStamp_add_slots_ne (n : UInt64) :
    lapPlace slots (n + slots.toUInt64) = lapPlace slots n
      ∧ lapStamp slots (n + slots.toUInt64) ≠ lapStamp slots n := by
  obtain ⟨m, rfl⟩ : ∃ m, n = UInt64.ofNat m := ⟨n.toNat, (UInt64.ofNat_toNat).symm⟩
  have hpos : 0 < slots.toNat := hslots ▸ Nat.two_pow_pos k
  have hnext : UInt64.ofNat m + slots.toUInt64 = UInt64.ofNat (m + slots.toNat) := by
    rw [UInt64.ofNat_add, ← UInt32.toNat_toUInt64, UInt64.ofNat_toNat]
  rw [hnext, lapPlace_ofNat hslots, lapPlace_ofNat hslots, Ne, lapStamp_eq_iff hslots,
    Nat.add_mod_right, Nat.add_div_right m hpos]
  exact ⟨rfl, by omega⟩

end
