import Mathlib.Data.List.Basic
import Mathlib.Data.List.Forall2

/-!
# The first element that matches

A linked list that is searched from its head for the first element satisfying a
test, and then has that element unlinked or changed in place. `List.find?` and
`List.eraseP` are the search and the removal; `List.modifyFirst` is the change.

All three are settled by where the element stands (`find?_split`): the list is
`l₁ ++ a :: l₂` with no match in `l₁`, removal leaves `l₁ ++ l₂` and change
leaves `l₁ ++ f a :: l₂`.
-/

variable {α : Type}

/-- Change the first element that satisfies the test. -/
def List.modifyFirst (p : α → Bool) (f : α → α) : List α → List α
  | [] => []
  | a :: l => if p a then f a :: l else a :: modifyFirst p f l

/-- **Where a search ends.** The element found stands after a part of the list
without a match; unlinking it joins the two parts, changing it leaves them. -/
theorem List.find?_split {p : α → Bool} {l : List α} {a : α}
    (h : l.find? p = some a) :
    ∃ l₁ l₂, l = l₁ ++ a :: l₂ ∧ (∀ x ∈ l₁, p x = false) ∧ p a = true
      ∧ l.eraseP p = l₁ ++ l₂
      ∧ ∀ f, l.modifyFirst p f = l₁ ++ f a :: l₂ := by
  induction l with
  | nil => cases h
  | cons b l ih =>
    rw [List.find?_cons] at h
    cases hb : p b with
    | true =>
      rw [hb] at h
      cases h
      refine ⟨[], l, rfl, by simp, hb, by simp [hb], fun f => ?_⟩
      rw [List.modifyFirst, if_pos hb]
      rfl
    | false =>
      rw [hb] at h
      obtain ⟨l₁, l₂, rfl, hl₁, ha, herase, hmod⟩ := ih h
      refine ⟨b :: l₁, l₂, rfl, ?_, ha, ?_, fun f => ?_⟩
      · exact List.forall_mem_cons.mpr ⟨hb, hl₁⟩
      · rw [List.eraseP_cons_of_neg (by simp [hb]), herase]
        rfl
      · rw [List.modifyFirst, if_neg (by simp [hb]), hmod]
        rfl

/-- Where nothing matches, nothing is changed. -/
theorem List.modifyFirst_of_none {p : α → Bool} {l : List α} (h : l.find? p = none)
    (f : α → α) : l.modifyFirst p f = l := by
  induction l with
  | nil => rfl
  | cons a l ih =>
    rw [List.find?_cons] at h
    cases ha : p a with
    | true =>
      rw [ha] at h
      cases h
    | false =>
      rw [ha] at h
      rw [List.modifyFirst, if_neg (by simp [ha]), ih h]

/-- **In a list numbered in order, the search finds the lowest number**: what
stands under a lower number does not match. -/
theorem List.find?_lowest {p : α → Bool} {l : List α} {a : α} (h : l.find? p = some a)
    {no : α → ℕ} (hsorted : l.Pairwise (fun x y => no x < no y)) {x : α} (hx : x ∈ l)
    (hlt : no x < no a) : p x = false := by
  obtain ⟨l₁, l₂, rfl, hl₁, -⟩ := List.find?_split h
  rcases List.mem_append.mp hx with hx | hx
  · exact hl₁ x hx
  rcases List.mem_cons.mp hx with rfl | hx
  · exact absurd hlt (Nat.lt_irrefl _)
  · have hcons := (List.pairwise_append.mp hsorted).2.1
    have hgt := (List.pairwise_cons.mp hcons).1 x hx
    exact absurd hlt (Nat.lt_asymm hgt)

/-- A search for what a change affects finds the changed element. -/
theorem List.find?_modifyFirst {p : α → Bool} {f : α → α} (hf : ∀ a, p a = true → p (f a) = true)
    (l : List α) : (l.modifyFirst p f).find? p = (l.find? p).map f := by
  induction l with
  | nil => rfl
  | cons a l ih =>
    rw [List.modifyFirst]
    cases ha : p a with
    | true => rw [if_pos rfl, List.find?_cons_of_pos (hf a ha), List.find?_cons_of_pos ha]; rfl
    | false =>
      rw [if_neg (by simp), List.find?_cons_of_neg (by simp [ha]),
        List.find?_cons_of_neg (by simp [ha]), ih]

/-- A search for something else finds what it found before. -/
theorem List.find?_modifyFirst_of_disjoint {p q : α → Bool} {f : α → α}
    (hpq : ∀ a, p a = true → q a = false ∧ q (f a) = false) (l : List α) :
    (l.modifyFirst p f).find? q = l.find? q := by
  induction l with
  | nil => rfl
  | cons a l ih =>
    rw [List.modifyFirst]
    cases ha : p a with
    | true =>
      obtain ⟨hq, hqf⟩ := hpq a ha
      rw [if_pos rfl, List.find?_cons_of_neg (by simp [hqf]),
        List.find?_cons_of_neg (by simp [hq])]
    | false =>
      rw [if_neg (by simp), List.find?_cons, List.find?_cons, ih]

/-- Under distinct keys, dropping a key drops the one element that has it. -/
theorem List.filter_ne_of_nodup {key : α → ℕ} {l : List α} (hnodup : (l.map key).Nodup) {k : ℕ}
    {a : α} (h : l.find? (fun x => key x == k) = some a) :
    ∃ l₁ l₂, l = l₁ ++ a :: l₂ ∧ l.filter (fun x => key x != k) = l₁ ++ l₂ := by
  obtain ⟨l₁, l₂, rfl, hl₁, ha, -, -⟩ := List.find?_split h
  refine ⟨l₁, l₂, rfl, ?_⟩
  have ha : key a = k := by simpa using ha
  have hl₂ : ∀ x ∈ l₂, (key x != k) = true := by
    intro x hx
    rw [List.map_append, List.map_cons] at hnodup
    have hcons := (List.nodup_cons.mp (List.nodup_append.mp hnodup).2.1).1
    have hne : key x ≠ k := by
      intro heq
      rw [ha, ← heq] at hcons
      exact hcons (List.mem_map_of_mem hx)
    simpa using hne
  have hl₁ : ∀ x ∈ l₁, (key x != k) = true := by
    intro x hx
    simpa using hl₁ x hx
  rw [List.filter_append, List.filter_cons_of_neg (by simp [ha]), List.filter_eq_self.mpr hl₁,
    List.filter_eq_self.mpr hl₂]

/-- Under distinct keys, the element a search for a key finds is the only one that
has it. -/
theorem List.find?_key_split {κ : Type} [DecidableEq κ] {key : α → κ} {l : List α}
    (hnodup : (l.map key).Nodup) {k : κ} {a : α} (h : l.find? (fun x => key x == k) = some a) :
    ∃ l₁ l₂, l = l₁ ++ a :: l₂ ∧ key a = k ∧ (∀ x ∈ l₁, key x ≠ k) ∧ (∀ x ∈ l₂, key x ≠ k)
      ∧ l.eraseP (fun x => key x == k) = l₁ ++ l₂
      ∧ ∀ f, l.modifyFirst (fun x => key x == k) f = l₁ ++ f a :: l₂ := by
  obtain ⟨l₁, l₂, rfl, hl₁, ha, herase, hmod⟩ := List.find?_split h
  have ha : key a = k := by simpa using ha
  refine ⟨l₁, l₂, rfl, ha, fun x hx => by simpa using hl₁ x hx, fun x hx heq => ?_, herase, hmod⟩
  rw [List.map_append, List.map_cons] at hnodup
  have hcons := (List.nodup_cons.mp (List.nodup_append.mp hnodup).2.1).1
  rw [ha, ← heq] at hcons
  exact hcons (List.mem_map_of_mem hx)

/-- Under distinct keys, unlinking the element with a key or writing it back is a
map over the list that leaves the others alone. -/
theorem List.filterMap_key {κ : Type} [DecidableEq κ] {key : α → κ} {l : List α}
    (hnodup : (l.map key).Nodup) {k : κ} {a : α} (h : l.find? (fun x => key x == k) = some a)
    {g : α → Option α} (hg : ∀ x, key x ≠ k → g x = some x) :
    l.filterMap g = match g a with
      | none => l.eraseP (fun x => key x == k)
      | some b => l.modifyFirst (fun x => key x == k) (fun _ => b) := by
  obtain ⟨l₁, l₂, rfl, -, hl₁, hl₂, herase, hmod⟩ := List.find?_key_split hnodup h
  have hkeep : ∀ l : List α, (∀ x ∈ l, key x ≠ k) → l.filterMap g = l := by
    intro l hl
    rw [List.filterMap_congr (fun x hx => hg x (hl x hx)), List.filterMap_some]
  rw [List.filterMap_append, List.filterMap_cons, hkeep l₁ hl₁, hkeep l₂ hl₂]
  cases g a with
  | none => exact herase.symm
  | some b => exact (hmod (fun _ => b)).symm

/-- A map that drops elements or keeps their keys drops keys. -/
theorem List.map_filterMap_sublist {κ : Type} {key : α → κ} {g : α → Option α}
    (hg : ∀ a b, g a = some b → key b = key a) (l : List α) :
    ((l.filterMap g).map key).Sublist (l.map key) := by
  induction l with
  | nil => exact .slnil
  | cons a l ih =>
    rw [List.filterMap_cons, List.map_cons]
    cases ha : g a with
    | none => exact ih.cons _
    | some b =>
      dsimp only
      rw [List.map_cons, hg a b ha]
      exact ih.cons_cons _

/-- Under distinct keys, a map that drops every element without a key keeps at most
the one that has it. -/
theorem List.filterMap_key_toList {κ β : Type} [DecidableEq κ] {key : α → κ} {l : List α}
    (hnodup : (l.map key).Nodup) {k : κ} {a : α} (h : l.find? (fun x => key x == k) = some a)
    {g : α → Option β} (hg : ∀ x, key x ≠ k → g x = none) : l.filterMap g = (g a).toList := by
  obtain ⟨l₁, l₂, rfl, -, hl₁, hl₂, -, -⟩ := List.find?_key_split hnodup h
  have hdrop : ∀ l : List α, (∀ x ∈ l, key x ≠ k) → l.filterMap g = [] :=
    fun l hl => List.filterMap_eq_nil_iff.mpr (fun x hx => hg x (hl x hx))
  rw [List.filterMap_append, List.filterMap_cons, hdrop l₁ hl₁, hdrop l₂ hl₂]
  cases g a with
  | none => rfl
  | some b => rfl

/-- A map that is one of two maps at each element, where the other drops it. -/
theorem List.filterMap_perm_append {β : Type} {f g h : α → Option β} {l : List α}
    (hl : ∀ x ∈ l, (f x = g x ∧ h x = none) ∨ (g x = none ∧ f x = h x)) :
    (l.filterMap f).Perm (l.filterMap g ++ l.filterMap h) := by
  induction l with
  | nil => exact .nil
  | cons a l ih =>
    have htail := ih (fun x hx => hl x (List.mem_cons_of_mem _ hx))
    obtain ⟨hf, hh⟩ | ⟨hg, hf⟩ := hl a List.mem_cons_self
    · rw [List.filterMap_cons, List.filterMap_cons, List.filterMap_cons_none hh, hf]
      cases g a with
      | none => exact htail
      | some b => exact htail.cons b
    · rw [List.filterMap_cons, List.filterMap_cons_none hg, List.filterMap_cons, hf]
      cases h a with
      | none => exact htail
      | some b => exact (htail.cons b).trans List.perm_middle.symm

/-- **Two lists that are searched alike.** If related elements pass the tests together, the
searches end at related elements, or both find nothing; and what is left is related. -/
theorem List.Forall₂.find?_eraseP {β : Type} {R : α → β → Prop} {p : α → Bool} {q : β → Bool}
    (hpq : ∀ a b, R a b → p a = q b) {l : List α} {l' : List β} (h : List.Forall₂ R l l') :
    (l.find? p = none ∧ l'.find? q = none)
      ∨ ∃ a b, R a b ∧ l.find? p = some a ∧ l'.find? q = some b
        ∧ List.Forall₂ R (l.eraseP p) (l'.eraseP q) := by
  induction h with
  | nil => exact .inl ⟨rfl, rfl⟩
  | @cons a b l l' hab htail ih =>
    rw [List.find?_cons, List.find?_cons, ← hpq a b hab]
    cases hp : p a with
    | true =>
      refine .inr ⟨a, b, hab, rfl, rfl, ?_⟩
      rw [List.eraseP_cons_of_pos hp, List.eraseP_cons_of_pos ((hpq a b hab) ▸ hp)]
      exact htail
    | false =>
      obtain hnone | ⟨c, d, hcd, hc, hd, herase⟩ := ih
      · exact .inl hnone
      · refine .inr ⟨c, d, hcd, hc, hd, ?_⟩
        rw [List.eraseP_cons_of_neg (by rw [hp]; decide),
          List.eraseP_cons_of_neg (by rw [← hpq a b hab, hp]; decide)]
        exact .cons hab herase

/-! ## A family of queues

Queues under keys: elements are appended to one of them, and the first match is taken out
of one. -/

section Queues

variable {κ : Type} [DecidableEq κ] {f : κ → List α} {j k : κ} {p : α → Bool} {a b : α}

/-- What a queue holds is found before what is appended to one. -/
theorem List.find?_update_append_of_some (h : (f k).find? p = some a) :
    (Function.update f j (f j ++ [b]) k).find? p = some a := by
  by_cases hk : k = j
  · subst hk
    rw [Function.update_self, List.find?_append, h]
    rfl
  · rw [Function.update_of_ne hk]
    exact h

/-- Where a queue holds no match, what is appended is found if it is one. -/
theorem List.find?_update_append_of_none (h : (f k).find? p = none) :
    (Function.update f j (f j ++ [b]) k).find? p = if k = j ∧ p b then some b else none := by
  by_cases hk : k = j
  · subst hk
    rw [Function.update_self, List.find?_append, h, Option.none_or, List.find?_singleton]
    exact if_congr (by rw [and_iff_right rfl]) rfl rfl
  · rw [Function.update_of_ne hk, if_neg (fun hb => hk hb.1)]
    exact h

/-- Taking out what is there and appending can be done in either order. -/
theorem List.update_append_update_eraseP (h : (f k).find? p = some a) :
    Function.update (Function.update f k ((f k).eraseP p)) j
        (Function.update f k ((f k).eraseP p) j ++ [b])
      = Function.update (Function.update f j (f j ++ [b])) k
        ((Function.update f j (f j ++ [b]) k).eraseP p) := by
  by_cases hk : k = j
  · subst hk
    have hany : ∃ x ∈ f k, p x = true :=
      ⟨a, List.mem_of_find?_eq_some h, List.find?_some h⟩
    rw [Function.update_self, Function.update_self, Function.update_idem, Function.update_idem,
      List.eraseP_append, if_pos (List.any_eq_true.mpr hany)]
  · rw [Function.update_of_ne hk, Function.update_of_ne (Ne.symm hk),
      Function.update_comm (Ne.symm hk)]

/-- What was appended is taken out again. -/
theorem List.update_eraseP_update_append (h : (f k).find? p = none) (hb : p b = true) :
    Function.update (Function.update f k (f k ++ [b])) k
      ((Function.update f k (f k ++ [b]) k).eraseP p) = f := by
  have hnone : ∀ x ∈ f k, ¬p x = true := List.find?_eq_none.mp h
  rw [Function.update_self, Function.update_idem, List.eraseP_append_right _ hnone,
    List.eraseP_cons_of_pos hb, List.append_nil, Function.update_eq_self]

end Queues
