import Mathlib.Data.PNat.Basic
import Mathlib.Data.List.Nodup
import Mathlib.Data.List.Range
import Mathlib.Logic.Function.Basic

/-!
# Circular queues with free-running counters

A circular queue keeps two counters, of what was written and of what was read, that are
never reduced: the place of an entry is the counter masked by the size, a power of two, and
the number of entries is the difference of the counters. Both are 64-bit words and wrap.

What the queue holds is told by its **places**, the window of indices from the reader to
the writer. As long as no more places are in use than there are, they are distinct
(`Cirque.nodup_places`), across the wrap of the counters too; so a write before the writer
touches no entry (`Cirque.windex_notMem_places`). A commit adds the writer's place at the end
of the window and a discard drops the reader's.
-/

/-- A circular queue over cells of type `α`. -/
structure Cirque (α : Type) where
  size : UInt64
  rcnt : UInt64
  wcnt : UInt64
  buf : ℕ → α
  /-- The size is a power of two, so the mask takes remainders. -/
  pow2 : ∃ k, size.toNat = 2 ^ k

namespace Cirque

variable {α : Type} (c : Cirque α)

def isEmpty : Bool := c.wcnt == c.rcnt

def usedcnt : UInt64 := c.wcnt - c.rcnt

def freecnt : UInt64 := c.size - c.usedcnt

def isFull : Bool := decide (c.freecnt ≤ 0)

/-- The place a counter stands for. -/
def index (n : UInt64) : ℕ := (n &&& (c.size - 1)).toNat

def rindex : ℕ := c.index c.rcnt

def windex : ℕ := c.index c.wcnt

def tindex : ℕ := c.index (c.wcnt - 1)

def head : α := c.buf c.rindex

def discard : Cirque α := { c with rcnt := c.rcnt + 1 }

def commit : Cirque α := { c with wcnt := c.wcnt + 1 }

/-- The cell at a place is written. -/
def set (i : ℕ) (x : α) : Cirque α := { c with buf := Function.update c.buf i x }

/-- The places in use, from the reader to the writer. -/
def places : List ℕ := (List.range c.usedcnt.toNat).map (fun i => c.index (c.rcnt + UInt64.ofNat i))

/-- No more places are in use than there are. -/
def Bounded : Prop := c.usedcnt.toNat ≤ c.size.toNat

/-! ## Places -/

/-- The mask takes the remainder by the size. -/
theorem index_eq (n : UInt64) : c.index n = n.toNat % c.size.toNat := by
  obtain ⟨k, hk⟩ := c.pow2
  have hone : (1 : UInt64) ≤ c.size := by
    rw [UInt64.le_iff_toNat_le, hk]
    exact Nat.one_le_two_pow
  rw [index, UInt64.toNat_and, UInt64.toNat_sub_of_le _ _ hone, hk]
  exact Nat.and_two_pow_sub_one_eq_mod _ _

theorem size_pos : 0 < c.size.toNat := by
  obtain ⟨k, hk⟩ := c.pow2
  rw [hk]
  exact Nat.two_pow_pos k

theorem size_dvd : c.size.toNat ∣ 2 ^ 64 := by
  obtain ⟨k, hk⟩ := c.pow2
  have hlt := c.size.toNat_lt
  rw [hk] at hlt ⊢
  exact Nat.pow_dvd_pow 2 ((Nat.pow_lt_pow_iff_right Nat.one_lt_two).mp hlt).le

/-- The place some way on, whether or not the counter wraps on the way. -/
theorem index_add (n : UInt64) (i : ℕ) :
    c.index (n + UInt64.ofNat i) = (n.toNat + i) % c.size.toNat := by
  rw [index_eq, UInt64.toNat_add, UInt64.toNat_ofNat', Nat.add_mod_mod,
    Nat.mod_mod_of_dvd _ c.size_dvd]

/-- Places less than a lap apart are distinct. -/
theorem index_inj {n : UInt64} {i j : ℕ} (hi : i < c.size.toNat) (hj : j < c.size.toNat)
    (h : c.index (n + UInt64.ofNat i) = c.index (n + UInt64.ofNat j)) : i = j := by
  rw [index_add, index_add] at h
  -- the larger of the two exceeds the other by a multiple of the size, less than the size
  have hdvd : ∀ a b, a ≤ b → b < c.size.toNat →
      (n.toNat + b) % c.size.toNat = (n.toNat + a) % c.size.toNat → b = a := by
    intro a b hab hb heq
    have hzero := Nat.sub_mod_eq_zero_of_mod_eq heq
    rw [Nat.add_sub_add_left, Nat.mod_eq_of_lt ((Nat.sub_le b a).trans_lt hb)] at hzero
    omega
  obtain hle | hle := Nat.le_total i j
  · exact (hdvd i j hle hj h.symm).symm
  · exact hdvd j i hle hi h

/-- The writer is as far from the reader as there are entries. -/
theorem rcnt_add_usedcnt : c.rcnt + UInt64.ofNat c.usedcnt.toNat = c.wcnt := by
  rw [UInt64.ofNat_toNat, usedcnt, UInt64.add_comm, UInt64.sub_add_cancel]

@[simp]
theorem length_places : c.places.length = c.usedcnt.toNat := by
  rw [places, List.length_map, List.length_range]

variable {c}

theorem nodup_places (h : c.Bounded) : c.places.Nodup := by
  refine List.Nodup.map_on (fun i hi j hj hij => ?_) List.nodup_range
  rw [List.mem_range] at hi hj
  exact c.index_inj (hi.trans_le h) (hj.trans_le h) hij

/-- The place before the writer is not in use while there is room. -/
theorem windex_notMem_places (h : c.usedcnt.toNat < c.size.toNat) : c.windex ∉ c.places := by
  intro hmem
  obtain ⟨i, hi, heq⟩ := List.mem_map.mp hmem
  rw [List.mem_range] at hi
  rw [windex, ← rcnt_add_usedcnt] at heq
  exact hi.ne (c.index_inj (hi.trans h) h heq)

theorem isEmpty_iff : c.isEmpty = true ↔ c.places = [] := by
  rw [← List.length_eq_zero_iff, length_places, isEmpty, beq_iff_eq, usedcnt]
  constructor
  · intro h
    rw [h, UInt64.sub_self]
    rfl
  · intro h
    have hzero : c.wcnt - c.rcnt = 0 := UInt64.toNat_inj.mp h
    rw [UInt64.sub_eq_iff_eq_add.mp hzero, UInt64.zero_add]

theorem freecnt_toNat (h : c.Bounded) : c.freecnt.toNat = c.size.toNat - c.usedcnt.toNat :=
  UInt64.toNat_sub_of_le _ _ (UInt64.le_iff_toNat_le.mpr h)

theorem isFull_iff (h : c.Bounded) : c.isFull = true ↔ c.usedcnt.toNat = c.size.toNat := by
  have hle : c.usedcnt.toNat ≤ c.size.toNat := h
  rw [isFull, decide_eq_true_iff, UInt64.le_iff_toNat_le, freecnt_toNat h]
  show _ ≤ 0 ↔ _
  omega

/-! ## Operations -/

/-- The reader's place is the first. -/
theorem places_eq_cons (h : c.isEmpty = false) : c.places = c.rindex :: c.discard.places := by
  have hpos : 0 < c.usedcnt.toNat := by
    rw [← length_places, List.length_pos_iff]
    exact fun hnil => Bool.false_ne_true (h.symm.trans (isEmpty_iff.mpr hnil))
  have hused : c.discard.usedcnt.toNat = c.usedcnt.toNat - 1 := by
    have hstep : c.discard.usedcnt = c.usedcnt - 1 := by
      show c.wcnt - (c.rcnt + 1) = c.wcnt - c.rcnt - 1
      grind
    rw [hstep]
    exact UInt64.toNat_sub_of_le _ _ (UInt64.le_iff_toNat_le.mpr hpos)
  obtain ⟨n, hn⟩ : ∃ n, c.usedcnt.toNat = n + 1 := ⟨_, (Nat.sub_add_cancel hpos).symm⟩
  rw [places, places, hused, hn, List.range_succ_eq_map, List.map_cons, List.map_map,
    Nat.add_sub_cancel]
  refine congrArg₂ List.cons (congrArg c.index (UInt64.add_zero c.rcnt)) ?_
  refine List.map_congr_left (fun i _ => ?_)
  refine congrArg c.index ?_
  show c.rcnt + UInt64.ofNat (i + 1) = c.rcnt + 1 + UInt64.ofNat i
  rw [UInt64.ofNat_add, UInt64.add_comm (UInt64.ofNat i), ← UInt64.add_assoc]
  rfl

theorem usedcnt_commit (h : c.usedcnt.toNat < c.size.toNat) :
    c.commit.usedcnt.toNat = c.usedcnt.toNat + 1 := by
  have hstep : c.commit.usedcnt = c.usedcnt + 1 := by
    show c.wcnt + 1 - c.rcnt = c.wcnt - c.rcnt + 1
    grind
  have hlt := c.size.toNat_lt
  rw [hstep, UInt64.toNat_add]
  exact Nat.mod_eq_of_lt (by have : (1 : UInt64).toNat = 1 := rfl; omega)

/-- A commit adds the writer's place. -/
theorem places_commit (h : c.usedcnt.toNat < c.size.toNat) :
    c.commit.places = c.places ++ [c.windex] := by
  rw [places, usedcnt_commit h, List.range_succ, List.map_append, List.map_singleton]
  exact congrArg (fun n => c.places ++ [c.index n]) c.rcnt_add_usedcnt

theorem bounded_commit (h : c.usedcnt.toNat < c.size.toNat) : c.commit.Bounded := by
  rw [Bounded, usedcnt_commit h]
  exact h

theorem bounded_discard (h : c.Bounded) (hne : c.isEmpty = false) : c.discard.Bounded := by
  have hlen := congrArg List.length (places_eq_cons hne)
  rw [List.length_cons, length_places, length_places] at hlen
  have hle : c.usedcnt.toNat ≤ c.size.toNat := h
  show c.discard.usedcnt.toNat ≤ c.size.toNat
  omega

/-- The writer's last place is the last in use. -/
theorem getLast?_places (hne : c.isEmpty = false) : c.places.getLast? = some c.tindex := by
  have hpos : 0 < c.usedcnt.toNat := by
    rw [← length_places, places_eq_cons hne]
    exact Nat.succ_pos _
  obtain ⟨n, hn⟩ : ∃ n, c.usedcnt.toNat = n + 1 := ⟨_, (Nat.sub_add_cancel hpos).symm⟩
  rw [places, hn, List.range_succ, List.map_append, List.map_singleton, List.getLast?_concat]
  refine congrArg (fun m => some (c.index m)) (UInt64.eq_sub_iff_add_eq.mpr ?_)
  rw [UInt64.add_assoc, ← rcnt_add_usedcnt c, hn, UInt64.ofNat_add]
  rfl

/-- After a commit the writer's last place is the one it stood before. -/
theorem tindex_commit : c.commit.tindex = c.windex :=
  congrArg c.index (UInt64.add_sub_cancel c.wcnt 1)

theorem buf_set_of_ne {i j : ℕ} (x : α) (h : j ≠ i) : (c.set i x).buf j = c.buf j := by
  show Function.update c.buf i x j = c.buf j
  rw [Function.update_of_ne h]

theorem buf_set_self (i : ℕ) (x : α) : (c.set i x).buf i = x := by
  show Function.update c.buf i x i = x
  rw [Function.update_self]

end Cirque
