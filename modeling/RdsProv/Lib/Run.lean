import Mathlib.Data.List.Basic

/-!
# Runs of a machine

A machine is a step function `σ → α → σ`; a run is a list of actions, and the
state it leads to is a left fold. What can be asked of a run is that each of its
actions is admissible in the state in which it is taken: `Along`.

The first rule is `Along.invariant`: what an admissible action preserves holds
after every admissible run. Where every admissible action also uses up some of a
measure, runs are bounded by it (`Along.length_le`) and any run can be carried on
until nothing is admissible (`Along.exists_maximal`). Where the steps of one machine
are runs of another, so are its runs (`Along.refines`).
-/

variable {σ α : Type}

/-- Every action of a run is admissible in the state in which it is taken. -/
def Along (step : σ → α → σ) (ok : σ → α → Prop) : σ → List α → Prop
  | _, [] => True
  | s, a :: as => ok s a ∧ Along step ok (step s a) as

namespace Along

variable {step : σ → α → σ} {ok ok' : σ → α → Prop}

instance decidable [∀ s a, Decidable (ok s a)] : ∀ s as, Decidable (Along step ok s as)
  | _, [] => .isTrue trivial
  | s, a :: as =>
    have := decidable (step s a) as
    inferInstanceAs (Decidable (ok s a ∧ Along step ok (step s a) as))

/-- **The invariant rule.** What each admissible action preserves, an admissible
run preserves. -/
theorem invariant {inv : σ → Prop} (hstep : ∀ s a, inv s → ok s a → inv (step s a))
    {s : σ} (hs : inv s) {as : List α} (h : Along step ok s as) :
    inv (as.foldl step s) := by
  induction as generalizing s with
  | nil => exact hs
  | cons a as ih => exact ih (hstep s a hs h.1) h.2

/-- A run that is admissible stays so when more is. -/
theorem imp (hok : ∀ s a, ok s a → ok' s a) {s : σ} {as : List α} (h : Along step ok s as) :
    Along step ok' s as := by
  induction as generalizing s with
  | nil => trivial
  | cons a as ih => exact ⟨hok s a h.1, ih h.2⟩

/-- A run that is admissible in two ways is admissible in both. -/
theorem and {s : σ} {as : List α} (h : Along step ok s as) (h' : Along step ok' s as) :
    Along step (fun s a => ok s a ∧ ok' s a) s as := by
  induction as generalizing s with
  | nil => trivial
  | cons a as ih => exact ⟨⟨h.1, h'.1⟩, ih h.2 h'.2⟩

/-- A condition on actions alone. -/
theorem of_forall {p : α → Prop} {s : σ} {as : List α} (h : ∀ a ∈ as, p a) :
    Along step (fun _ a => p a) s as := by
  induction as generalizing s with
  | nil => trivial
  | cons a as ih => exact ⟨h a List.mem_cons_self, ih (fun b hb => h b (List.mem_cons_of_mem a hb))⟩

/-- A run in two parts. -/
theorem append {s : σ} {as bs : List α} :
    Along step ok s (as ++ bs) ↔ Along step ok s as ∧ Along step ok (as.foldl step s) bs := by
  induction as generalizing s with
  | nil => exact (and_iff_right trivial).symm
  | cons a as ih =>
    rw [List.cons_append, Along, Along, ih, and_assoc]
    rfl

/-- **The refinement rule.** If every step of a machine is a run of another on the same
states, then so is every run. -/
theorem refines {β : Type} {step' : σ → β → σ} {ok' : σ → β → Prop}
    (h : ∀ s b, ok' s b → ∃ as, Along step ok s as ∧ as.foldl step s = step' s b)
    {s : σ} {bs : List β} (hbs : Along step' ok' s bs) :
    ∃ as, Along step ok s as ∧ as.foldl step s = bs.foldl step' s := by
  induction bs generalizing s with
  | nil => exact ⟨[], trivial, rfl⟩
  | cons b bs ih =>
    obtain ⟨as, has, hstep⟩ := h s b hbs.1
    obtain ⟨as', has', hrest⟩ := ih hbs.2
    refine ⟨as ++ as', append.mpr ⟨has, hstep ▸ has'⟩, ?_⟩
    rw [List.foldl_append, hstep, hrest, List.foldl_cons]

section Measure

variable {inv : σ → Prop} {measure : σ → ℕ}
  (hinv : ∀ s a, inv s → ok s a → inv (step s a))
  (hmeasure : ∀ s a, inv s → ok s a → measure (step s a) < measure s)

include hinv hmeasure

/-- **The measure rule.** A run is no longer than the measure of the state it starts
from. -/
theorem length_le {s : σ} (hs : inv s) {as : List α} (h : Along step ok s as) :
    as.length ≤ measure s := by
  induction as generalizing s with
  | nil => exact Nat.zero_le _
  | cons a as ih =>
    have hrest := ih (hinv s a hs h.1) h.2
    have hstep := hmeasure s a hs h.1
    rw [List.length_cons]
    omega

/-- **Every state has a run that cannot be carried on.** -/
theorem exists_maximal {s : σ} (hs : inv s) :
    ∃ as, Along step ok s as ∧ ∀ a, ¬ ok (as.foldl step s) a := by
  induction hn : measure s using Nat.strongRecOn generalizing s with
  | ind n ih =>
    by_cases hdone : ∀ a, ¬ ok s a
    · exact ⟨[], trivial, hdone⟩
    · obtain ⟨a, ha⟩ := not_forall_not.mp hdone
      obtain ⟨as, hrun, hlast⟩ := ih _ (hn ▸ hmeasure s a hs ha) (hinv s a hs ha) rfl
      exact ⟨a :: as, ⟨ha, hrun⟩, hlast⟩

end Measure

/-- **The exactness rule.** If an action that is taken where the invariant holds keeps it
exactly if it is admissible, then a run is admissible exactly if the invariant holds
throughout. -/
theorem iff_forall_prefix {side inv : σ → Prop} (hside : ∀ s a, side s → side (step s a))
    (hstep : ∀ s a, side s → inv s → (inv (step s a) ↔ ok s a)) {s : σ} (hs : side s)
    (hinv : inv s) (as : List α) :
    Along step ok s as ↔ ∀ pre, pre <+: as → inv (pre.foldl step s) := by
  induction as generalizing s with
  | nil =>
    refine iff_of_true trivial (fun pre hpre => ?_)
    rw [List.prefix_nil.mp hpre]
    exact hinv
  | cons a as ih =>
    constructor
    · rintro ⟨hok, h⟩ pre hpre
      have hnext := (hstep s a hs hinv).mpr hok
      cases pre with
      | nil => exact hinv
      | cons b pre =>
        obtain ⟨rfl, htail⟩ := List.cons_prefix_cons.mp hpre
        exact (ih (hside s b hs) hnext).mp h pre htail
    · intro h
      have hnext : inv (step s a) := h [a] ⟨as, rfl⟩
      refine ⟨(hstep s a hs hinv).mp hnext, (ih (hside s a hs) hnext).mpr (fun pre hpre => ?_)⟩
      exact h (a :: pre) (List.cons_prefix_cons.mpr ⟨rfl, hpre⟩)

end Along
