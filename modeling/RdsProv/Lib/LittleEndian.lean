import Mathlib.Tactic.Ring
import Mathlib.Data.List.Basic

/-!
# Little-endian fields of a byte string

A packed C structure is a byte string in which each integer member occupies a
fixed window, least significant byte first. `leEncode w n` is the window of
width `w` that holds `n`, and `leField bs off w` reads the window of width `w`
that starts at `off`.

The fact the formats need is `leField_append`: a field written after a
known number of bytes is read back whatever follows it. That a window determines
its bytes is `leDecode_inj`. Reading past the end of
the string is total here – the missing bytes read as nothing – so a format that
must not read past its input states that separately.
-/

/-- The `w` bytes of `n`, least significant first; higher bits are dropped. -/
def leEncode : ℕ → ℕ → List UInt8
  | 0, _ => []
  | w + 1, n => UInt8.ofNat n :: leEncode w (n / 256)

/-- The number a byte string stands for, least significant byte first. -/
def leDecode (bs : List UInt8) : ℕ :=
  bs.foldr (fun b acc => b.toNat + 256 * acc) 0

/-- The number held by the window of width `w` at offset `off`. -/
def leField (bs : List UInt8) (off w : ℕ) : ℕ :=
  leDecode ((bs.drop off).take w)

@[simp] theorem leEncode_length (w n : ℕ) : (leEncode w n).length = w := by
  induction w generalizing n with
  | zero => rfl
  | succ w ih => rw [leEncode, List.length_cons, ih]

/-- **A window holds its number up to the width of the window.** -/
theorem leDecode_leEncode (w n : ℕ) : leDecode (leEncode w n) = n % 256 ^ w := by
  induction w generalizing n with
  | zero => rw [pow_zero, Nat.mod_one]; rfl
  | succ w ih =>
    have hcons : leDecode (leEncode (w + 1) n)
        = (UInt8.ofNat n).toNat + 256 * leDecode (leEncode w (n / 256)) := rfl
    have hbyte : (UInt8.ofNat n).toNat = n % 256 := by
      rw [UInt8.toNat_ofNat']
    rw [hcons, hbyte, ih, pow_succ', Nat.mod_mul]

/-- **A field is read back where it was written**, whatever precedes it up to
its offset and whatever follows it. -/
theorem leField_append {pre : List UInt8} {off : ℕ} (hoff : pre.length = off)
    (w n : ℕ) (post : List UInt8) :
    leField (pre ++ (leEncode w n ++ post)) off w = n % 256 ^ w := by
  subst hoff
  rw [leField, List.drop_left]
  have htake : (leEncode w n ++ post).take w = leEncode w n := by
    rw [List.take_append_of_le_length (by rw [leEncode_length]), List.take_of_length_le]
    rw [leEncode_length]
  rw [htake, leDecode_leEncode]

/-- Cleared bytes stand for zero. -/
theorem leDecode_replicate (n : ℕ) : leDecode (List.replicate n 0) = 0 := by
  induction n with
  | zero => rfl
  | succ n ih =>
    have hcons : leDecode (List.replicate (n + 1) 0) = 0 + 256 * leDecode (List.replicate n 0) :=
      rfl
    rw [hcons, ih]

/-- A byte string stands for a number of its width. -/
theorem leDecode_lt (bs : List UInt8) : leDecode bs < 256 ^ bs.length := by
  induction bs with
  | nil => exact Nat.one_pos
  | cons b bs ih =>
    have hcons : leDecode (b :: bs) = b.toNat + 256 * leDecode bs := rfl
    have hb := b.toNat_lt
    rw [hcons, List.length_cons, pow_succ']
    omega

/-- Byte strings of one length that stand for the same number are the same. -/
theorem leDecode_inj {as bs : List UInt8} (hlen : as.length = bs.length)
    (h : leDecode as = leDecode bs) : as = bs := by
  induction as generalizing bs with
  | nil => exact (List.length_eq_zero_iff.mp hlen.symm).symm
  | cons a as ih =>
    cases bs with
    | nil => cases hlen
    | cons b bs =>
      have hcons : a.toNat + 256 * leDecode as = b.toNat + 256 * leDecode bs := h
      have ha := a.toNat_lt
      have hb := b.toNat_lt
      have hbyte : a = b := UInt8.toNat_inj.mp (by omega)
      rw [hbyte, ih (Nat.succ.inj hlen) (by omega)]
