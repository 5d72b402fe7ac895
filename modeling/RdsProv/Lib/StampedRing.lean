import Mathlib.Logic.Function.Basic
import Mathlib.Order.Interval.Finset.Nat

/-!
# A ring of stamped slots

One producer writes messages into the memory of one consumer, without ever being told
that a write has landed. A message is *staged* in the producer's memory and posted;
later an adapter reads it from there (`fetch`) and writes it into the consumer's memory
(`land`), in the order of posting. The `n`th message uses place `n % slots` on both sides.
The consumer takes the message at its next place if it carries the stamp of its number,
and the producer posts only while fewer than `slots` messages may be out, going by the
*credit* it has heard of.

`StampedRing.Inv` is what ties the two memories to the sequence of messages posted. Each
operation keeps it, if a stamp differs from that of the next lap and no credit exceeds what
was taken. It makes the ring a queue: what is taken is a prefix of what was posted
(`Inv.taken_prefix`), and a message is there to be taken exactly if it has landed
(`Inv.takes_iff`), whatever is left from earlier laps.
-/

/-- **One direction of a ring.** -/
structure StampedRing (σ : Type*) where
  /-- The messages posted. -/
  sent : List σ
  /-- How many of them have landed. -/
  landed : ℕ
  /-- The messages taken. -/
  taken : List σ
  /-- The credit the producer has heard of. -/
  tail : ℕ
  /-- The producer's memory. -/
  stage : ℕ → σ
  /-- The consumer's memory. -/
  cells : ℕ → σ
  /-- What the adapter has read of each message. -/
  fetched : ℕ → Option σ

namespace StampedRing

variable {σ γ : Type*}

/-! ## The operations -/

section

variable (slots : ℕ) (r : StampedRing σ)

/-- Stage a message at the next place. -/
def write (x : σ) : StampedRing σ :=
  { r with stage := Function.update r.stage (r.sent.length % slots) x }

/-- Stage a message and post it. -/
def post (x : σ) : StampedRing σ := { r.write slots x with sent := r.sent ++ [x] }

/-- The adapter reads the `n`th message. -/
def fetch (n : ℕ) : StampedRing σ :=
  { r with fetched := Function.update r.fetched n (some (r.stage (n % slots))) }

/-- What the adapter has read lands. -/
def land (x : σ) : StampedRing σ :=
  { r with cells := Function.update r.cells (r.landed % slots) x, landed := r.landed + 1 }

/-- The message at the consumer's next place. -/
def next : σ := r.cells (r.taken.length % slots)

/-- Take the message at the next place. -/
def take : StampedRing σ := { r with taken := r.taken ++ [r.next slots] }

/-- Hear of credit. -/
def learn (c : ℕ) : StampedRing σ := { r with tail := max r.tail c }

end

/-! ## The invariant -/

/-- **The invariant.** The counters are in order and at most one lap apart, messages carry
the stamps of their numbers, and both memories hold the messages that are still needed. -/
structure Inv (slots : ℕ) (stampOf : σ → γ) (stamp : ℕ → γ) (r : StampedRing σ) : Prop where
  taken_prefix : r.taken <+: r.sent
  tail_le : r.tail ≤ r.taken.length
  taken_le : r.taken.length ≤ r.landed
  landed_le : r.landed ≤ r.sent.length
  sent_le : r.sent.length ≤ r.tail + slots
  stamped : ∀ n x, r.sent[n]? = some x → stampOf x = stamp n
  /-- A message that has not landed is still staged. -/
  staged : ∀ n x, r.landed ≤ n → r.sent[n]? = some x → r.stage (n % slots) = x
  /-- What was read of such a message is the message. -/
  read : ∀ n x, r.landed ≤ n → r.fetched n = some x → r.sent[n]? = some x
  /-- The consumer's memory holds the messages of the last lap. -/
  placed : ∀ n x, n < r.landed → r.landed ≤ n + slots → r.sent[n]? = some x →
    r.cells (n % slots) = x
  /-- A place nothing has landed in does not carry the stamp of its first message. -/
  blank : ∀ n, r.landed ≤ n → n < slots → stampOf (r.cells n) ≠ stamp n

/-- Two numbers less than a lap apart have different places. -/
theorem mod_ne_of_lt {slots m n : ℕ} (hmn : m < n) (hlap : n < m + slots) :
    m % slots ≠ n % slots := by
  intro h
  have heq := Nat.mod_injOn_Ico m slots (by simp; omega) (by simp; omega) h
  omega

namespace Inv

variable {slots : ℕ} {stampOf : σ → γ} {stamp : ℕ → γ} {r : StampedRing σ}

/-- Nothing is posted yet, and no place carries the stamp of its first message. -/
theorem init {stage cells : ℕ → σ} (hblank : ∀ n, n < slots → stampOf (cells n) ≠ stamp n) :
    Inv slots stampOf stamp ⟨[], 0, [], 0, stage, cells, fun _ => none⟩ where
  taken_prefix := List.nil_prefix
  tail_le := le_rfl
  taken_le := le_rfl
  landed_le := le_rfl
  sent_le := Nat.zero_le _
  stamped _ _ h := by cases h
  staged _ _ _ h := by cases h
  read _ _ _ h := by cases h
  placed _ _ _ _ h := by cases h
  blank n _ hn := hblank n hn

variable (h : r.Inv slots stampOf stamp)

include h

/-- **Staging spares what has not landed**, as long as there is room. -/
theorem write_staged {x y : σ} {n : ℕ} (hroom : r.sent.length < r.tail + slots)
    (hn : r.landed ≤ n) (hy : r.sent[n]? = some y) : (r.write slots x).stage (n % slots) = y := by
  obtain ⟨hlt, -⟩ := List.getElem?_eq_some_iff.mp hy
  have hplace : n % slots ≠ r.sent.length % slots := by
    refine mod_ne_of_lt hlt ?_
    have := h.tail_le
    have := h.taken_le
    omega
  exact (Function.update_of_ne hplace _ _).trans (h.staged n y hn hy)

theorem write {x : σ} (hroom : r.sent.length < r.tail + slots) :
    (r.write slots x).Inv slots stampOf stamp :=
  { h with staged := fun _ _ hn hy => h.write_staged hroom hn hy }

/-- **Posting** a message that carries the stamp of its number. -/
theorem post {x : σ} (hroom : r.sent.length < r.tail + slots)
    (hx : stampOf x = stamp r.sent.length) : (r.post slots x).Inv slots stampOf stamp := by
  have hold {n : ℕ} {y : σ} (hy : (r.sent ++ [x])[n]? = some y) :
      r.sent[n]? = some y ∨ n = r.sent.length ∧ x = y := by
    obtain hn | rfl | hn := Nat.lt_trichotomy n r.sent.length
    · exact .inl ((List.getElem?_append_left hn).symm.trans hy)
    · rw [List.getElem?_concat_length] at hy
      exact .inr ⟨rfl, Option.some.inj hy⟩
    · rw [List.getElem?_eq_none (by simpa using Nat.succ_le_of_lt hn)] at hy
      cases hy
  have hnew {n : ℕ} {y : σ} (hy : r.sent[n]? = some y) : (r.sent ++ [x])[n]? = some y := by
    obtain ⟨hlt, -⟩ := List.getElem?_eq_some_iff.mp hy
    exact (List.getElem?_append_left hlt).trans hy
  have hlen : (r.sent ++ [x]).length = r.sent.length + 1 := List.length_append
  refine ⟨h.taken_prefix.trans (List.prefix_append _ _), h.tail_le, h.taken_le, ?_, ?_, ?_, ?_, ?_,
    ?_, h.blank⟩
  · exact h.landed_le.trans (by simp [StampedRing.post])
  · show (r.sent ++ [x]).length ≤ r.tail + slots
    omega
  · intro n y hy
    obtain hy | ⟨rfl, rfl⟩ := hold hy
    · exact h.stamped n y hy
    · exact hx
  · intro n y hn hy
    obtain hy | ⟨rfl, rfl⟩ := hold hy
    · exact h.write_staged hroom hn hy
    · exact Function.update_self _ _ _
  · exact fun n y hn hy => hnew (h.read n y hn hy)
  · intro n y hn hlap hy
    obtain hy | ⟨rfl, -⟩ := hold hy
    · exact h.placed n y hn hlap hy
    · exact absurd h.landed_le (Nat.not_le.mpr hn)

/-- **The adapter reads the message**, whenever it does. -/
theorem fetch {n : ℕ} (hn : n < r.sent.length) : (r.fetch slots n).Inv slots stampOf stamp := by
  refine { h with read := fun m x hm hx => ?_ }
  by_cases hmn : m = n
  · subst hmn
    have hx : Function.update r.fetched m (some (r.stage (m % slots))) m = some x := hx
    rw [Function.update_self, Option.some.injEq] at hx
    have hmsg := List.getElem?_eq_getElem hn
    rw [h.staged m _ hm hmsg] at hx
    exact hx ▸ hmsg
  · exact h.read m x hm ((Function.update_of_ne hmn _ _).symm.trans hx)

/-- **Landing spares what has not been taken.** -/
theorem land {x : σ} (hx : r.fetched r.landed = some x) :
    (r.land slots x).Inv slots stampOf stamp := by
  have hmsg := h.read r.landed x le_rfl hx
  obtain ⟨hlt, -⟩ := List.getElem?_eq_some_iff.mp hmsg
  refine ⟨h.taken_prefix, h.tail_le, h.taken_le.trans (Nat.le_succ _), hlt, h.sent_le, h.stamped,
    fun n y hn => h.staged n y (Nat.le_of_succ_le hn),
    fun n y hn => h.read n y (Nat.le_of_succ_le hn), ?_, ?_⟩
  · intro n y hn hlap hy
    obtain hn | rfl := Nat.lt_succ_iff_lt_or_eq.mp hn
    · have hplace : n % slots ≠ r.landed % slots := mod_ne_of_lt hn (Nat.lt_of_succ_le hlap)
      exact (Function.update_of_ne hplace _ _).trans
        (h.placed n y hn (Nat.le_of_succ_le hlap) hy)
    · exact (Function.update_self _ _ _).trans (Option.some.inj (hmsg.symm.trans hy))
  · intro n hn hslots
    have hn : r.landed + 1 ≤ n := hn
    have hplace : n ≠ r.landed % slots := by
      rw [Nat.mod_eq_of_lt (by omega)]
      omega
    show stampOf (Function.update r.cells (r.landed % slots) x n) ≠ stamp n
    rw [Function.update_of_ne hplace]
    exact h.blank n (Nat.le_of_succ_le hn) hslots

/-- What has landed and was not taken is in its place. -/
theorem cells_untaken {n : ℕ} {x : σ} (hn : r.taken.length ≤ n) (hlanded : n < r.landed)
    (hx : r.sent[n]? = some x) : r.cells (n % slots) = x := by
  refine h.placed n x hlanded ?_ hx
  have := h.landed_le
  have := h.sent_le
  have := h.tail_le
  omega

/-- **The stamp is right exactly if the message has landed**, provided a stamp differs from
that of the next lap. -/
theorem takes_iff (hstamp : ∀ n, stamp (n + slots) ≠ stamp n) :
    stampOf (r.next slots) = stamp r.taken.length ↔ r.taken.length < r.landed := by
  have hsent {n : ℕ} (hn : n < r.landed) : ∃ x, r.sent[n]? = some x :=
    ⟨_, List.getElem?_eq_getElem (hn.trans_le h.landed_le)⟩
  refine ⟨fun hnext => ?_, fun hlanded => ?_⟩
  · by_contra hlanded
    have heq : r.taken.length = r.landed := le_antisymm h.taken_le (Nat.not_lt.mp hlanded)
    rw [next, heq] at hnext
    -- the place was never written, or holds the message of the lap before
    obtain hfirst | hlap := Nat.lt_or_ge r.landed slots
    · rw [Nat.mod_eq_of_lt hfirst] at hnext
      exact h.blank r.landed le_rfl hfirst hnext
    · obtain ⟨n, hn⟩ := Nat.exists_eq_add_of_le' hlap
      have hslots : slots ≠ 0 := fun h0 => hstamp 0 (by rw [h0])
      have hold : n < r.landed := by omega
      obtain ⟨x, hx⟩ := hsent hold
      rw [hn, Nat.add_mod_right, h.placed n x hold hn.le hx, h.stamped n x hx] at hnext
      exact hstamp n hnext.symm
  · obtain ⟨x, hx⟩ := hsent hlanded
    rw [next, h.cells_untaken le_rfl hlanded hx]
    exact h.stamped _ x hx

/-- What is there to be taken is the next message. -/
theorem next_eq (hlanded : r.taken.length < r.landed) :
    r.sent[r.taken.length]? = some (r.next slots) := by
  have hlt := hlanded.trans_le h.landed_le
  rw [next, h.cells_untaken le_rfl hlanded (List.getElem?_eq_getElem hlt)]
  exact List.getElem?_eq_getElem hlt

/-- **Taking** a message with the right stamp. -/
theorem take (hstamp : ∀ n, stamp (n + slots) ≠ stamp n)
    (hnext : stampOf (r.next slots) = stamp r.taken.length) :
    (r.take slots).Inv slots stampOf stamp := by
  have hlanded := (h.takes_iff hstamp).mp hnext
  have hlen : (r.take slots).taken.length = r.taken.length + 1 := List.length_append
  refine { h with taken_prefix := ?_, tail_le := ?_, taken_le := ?_ }
  · obtain ⟨rest, hrest⟩ := h.taken_prefix
    have hmsg := h.next_eq hlanded
    rw [← hrest, List.getElem?_append_right le_rfl, Nat.sub_self] at hmsg
    cases rest with
    | nil => cases hmsg
    | cons y rest =>
      cases hmsg
      exact ⟨rest, (List.append_assoc _ _ _).trans hrest⟩
  · exact h.tail_le.trans (by omega)
  · rw [hlen]
    exact hlanded

/-- **Hearing of credit** that is no more than what was taken. -/
theorem learn {c : ℕ} (hc : c ≤ r.taken.length) : (r.learn c).Inv slots stampOf stamp :=
  { h with
    tail_le := max_le h.tail_le hc
    sent_le := h.sent_le.trans (Nat.add_le_add_right (le_max_left _ _) _) }

end Inv

end StampedRing
