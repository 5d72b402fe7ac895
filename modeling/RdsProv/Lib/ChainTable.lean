import Mathlib.Data.List.Nodup
import Mathlib.Data.List.Perm.Basic
import Mathlib.Logic.Function.Basic
import RdsProv.Lib.FirstMatch

/-!
# Records in hash chains, and on a list in order of use

A table of records by key, the way it is often laid out in C: a record is allocated once and
linked twice, into the hash chain of its key and into one list of all records, most
recently used first. Records are never unlinked.

A record is known by where it is allocated – the number of the allocation – so that the
redundant structures can disagree: nothing in the definition keeps a record from being on
two chains, or two records from having one key. `ChainTable.Sound` says that they agree,
and each operation keeps it. For a sound table a search of the right chain is a search of
all records (`Sound.find_eq_some`), and read off in order of use the records are a list on
which the operations are the plain list operations (`records_insert`, `records_touch`,
`records_store`).

The last section is about walking such a list while it changes. A walk that follows links
visits what was on the list when it began, once each, as long as what happens during the
walk links new records only at the head (`walkList_eq_foldl`).
-/

variable {α κ ι : Type}

/-- What is removed depends on the test for the elements of the list only. -/
theorem List.eraseP_congr_of_mem {p q : α → Bool} {l : List α} (h : ∀ a ∈ l, p a = q a) :
    l.eraseP p = l.eraseP q := by
  induction l with
  | nil => rfl
  | cons a l ih =>
    obtain ⟨ha, hl⟩ := List.forall_mem_cons.mp h
    rw [List.eraseP_cons, List.eraseP_cons, ha, ih hl]

/-- Records in hash chains and on a list in order of use. The first `made` places are
allocated. -/
structure ChainTable (α ι : Type) where
  mem : ℕ → α
  made : ℕ
  chain : ι → List ℕ
  lru : List ℕ

namespace ChainTable

/-- A table without records. -/
def empty (a : α) : ChainTable α ι := ⟨fun _ => a, 0, fun _ => [], []⟩

/-- Make a record the most recently used. -/
def touch (t : ChainTable α ι) (i : ℕ) : ChainTable α ι := { t with lru := i :: t.lru.erase i }

/-- Change a record in place. -/
def store (t : ChainTable α ι) (i : ℕ) (a : α) : ChainTable α ι :=
  { t with mem := Function.update t.mem i a }

/-- The records, most recently used first. -/
def records (t : ChainTable α ι) : List α := t.lru.map t.mem

variable [DecidableEq ι] (key : α → κ) (hash : κ → ι)

/-- Search the chain of a key. -/
def find [DecidableEq κ] (t : ChainTable α ι) (k : κ) : Option ℕ :=
  (t.chain (hash k)).find? (fun i => key (t.mem i) == k)

/-- Allocate a record and link it. -/
def insert (t : ChainTable α ι) (a : α) : ChainTable α ι where
  mem := Function.update t.mem t.made a
  made := t.made + 1
  chain := Function.update t.chain (hash (key a)) (t.made :: t.chain (hash (key a)))
  lru := t.made :: t.lru

/-- **The structures agree**: the list has every record once, a chain has every record whose
key belongs to it once, and no two records have one key. -/
structure Sound (t : ChainTable α ι) : Prop where
  lru : t.lru.Perm (List.range t.made)
  chain : ∀ h, (t.chain h).Perm
    ((List.range t.made).filter (fun i => hash (key (t.mem i)) = h))
  keys : ∀ i < t.made, ∀ j < t.made, key (t.mem i) = key (t.mem j) → i = j

variable {key hash} {t : ChainTable α ι}

theorem Sound.empty (a : α) : (empty a : ChainTable α ι).Sound key hash where
  lru := List.Perm.refl _
  chain _ := List.Perm.refl _
  keys i hi := absurd hi (Nat.not_lt_zero i)

namespace Sound

variable (h : t.Sound key hash)

include h

theorem mem_lru {i : ℕ} : i ∈ t.lru ↔ i < t.made := by
  rw [h.lru.mem_iff, List.mem_range]

theorem nodup : t.lru.Nodup := h.lru.nodup_iff.mpr List.nodup_range

theorem mem_chain {i : ℕ} {b : ι} : i ∈ t.chain b ↔ i < t.made ∧ hash (key (t.mem i)) = b := by
  rw [(h.chain b).mem_iff, List.mem_filter, List.mem_range, decide_eq_true_iff]

/-- **Every record is once on the list.** -/
theorem count_lru {i : ℕ} (hi : i < t.made) : t.lru.count i = 1 :=
  List.count_eq_one_of_mem h.nodup (h.mem_lru.mpr hi)

/-- **Every record is on one chain**, that of its key, and once. -/
theorem count_chain {i : ℕ} (hi : i < t.made) (b : ι) :
    (t.chain b).count i = if b = hash (key (t.mem i)) then 1 else 0 := by
  have hnodup : (t.chain b).Nodup := (h.chain b).nodup_iff.mpr (List.nodup_range.filter _)
  split
  · rename_i hb
    exact List.count_eq_one_of_mem hnodup (h.mem_chain.mpr ⟨hi, hb.symm⟩)
  · rename_i hb
    exact List.count_eq_zero.mpr (fun hmem => hb (h.mem_chain.mp hmem).2.symm)

/-- A record is moved to the head of the list. -/
theorem touch {i : ℕ} (hi : i < t.made) : (t.touch i).Sound key hash where
  lru := (List.perm_cons_erase (h.mem_lru.mpr hi)).symm.trans h.lru
  chain := h.chain
  keys := h.keys

/-- A record is changed but for its key. -/
theorem store {i : ℕ} {a : α} (hkey : key a = key (t.mem i)) : (t.store i a).Sound key hash := by
  have hsame (j : ℕ) : key ((t.store i a).mem j) = key (t.mem j) := by
    by_cases hj : j = i
    · subst hj
      exact (congrArg key (Function.update_self _ _ _)).trans hkey
    · exact congrArg key (Function.update_of_ne hj _ _)
  refine ⟨h.lru, fun b => ?_, fun j hj l hl hjl => h.keys j hj l hl ?_⟩
  · simp only [hsame]
    exact h.chain b
  · rw [← hsame j, ← hsame l]
    exact hjl

/-- A new record is the most recently used. -/
theorem records_insert (a : α) : (t.insert key hash a).records = a :: t.records := by
  show Function.update t.mem t.made a t.made :: t.lru.map (Function.update t.mem t.made a) = _
  rw [Function.update_self]
  refine congrArg (a :: ·) (List.map_congr_left (fun i hi => ?_))
  exact Function.update_of_ne (Nat.ne_of_lt (h.mem_lru.mp hi)) _ _

/-! ## Searching and inserting -/

variable [DecidableEq κ]

/-- **A search of the chain is a search of the records.** -/
theorem find_eq_some {k : κ} {i : ℕ} :
    t.find key hash k = some i ↔ i < t.made ∧ key (t.mem i) = k := by
  constructor
  · intro hfind
    have hkey : key (t.mem i) = k := by simpa using List.find?_some hfind
    exact ⟨(h.mem_chain.mp (List.mem_of_find?_eq_some hfind)).1, hkey⟩
  · rintro ⟨hi, rfl⟩
    cases hfind : t.find key hash (key (t.mem i)) with
    | none =>
      have := List.find?_eq_none.mp hfind i (h.mem_chain.mpr ⟨hi, rfl⟩)
      simp at this
    | some j =>
      have hj : key (t.mem j) = key (t.mem i) := by simpa using List.find?_some hfind
      have hmade := (h.mem_chain.mp (List.mem_of_find?_eq_some hfind)).1
      rw [h.keys j hmade i hi hj]

theorem find_eq_none {k : κ} : t.find key hash k = none ↔ ∀ i < t.made, key (t.mem i) ≠ k := by
  rw [Option.eq_none_iff_forall_not_mem]
  exact forall_congr' (fun i => (not_congr h.find_eq_some).trans not_and)

/-- A key that is not there gets a record. -/
theorem insert {a : α} (hnew : t.find key hash (key a) = none) :
    (t.insert key hash a).Sound key hash := by
  have hold {i : ℕ} (hi : i < t.made) : (t.insert key hash a).mem i = t.mem i :=
    Function.update_of_ne (Nat.ne_of_lt hi) _ _
  have hself : (t.insert key hash a).mem t.made = a := Function.update_self _ _ _
  refine ⟨?_, fun b => ?_, fun i hi j hj hij => ?_⟩
  · show (t.made :: t.lru).Perm (List.range (t.made + 1))
    rw [List.range_succ]
    exact (h.lru.cons t.made).trans (List.perm_append_singleton _ _).symm
  · have hfilter : (List.range t.made).filter
        (fun i => hash (key ((t.insert key hash a).mem i)) = b)
        = (List.range t.made).filter (fun i => hash (key (t.mem i)) = b) :=
      List.filter_congr (fun i hi => by rw [hold (List.mem_range.mp hi)])
    show (Function.update t.chain (hash (key a)) (t.made :: t.chain (hash (key a))) b).Perm
      ((List.range (t.made + 1)).filter _)
    rw [List.range_succ, List.filter_append, hfilter]
    by_cases hb : hash (key a) = b
    · subst hb
      rw [Function.update_self, List.filter_cons_of_pos (by rw [hself]; exact decide_eq_true rfl)]
      exact ((h.chain _).cons t.made).trans (List.perm_append_singleton _ _).symm
    · rw [Function.update_of_ne (Ne.symm hb),
        List.filter_cons_of_neg (by rw [hself]; simpa using hb)]
      exact (List.append_nil _).symm ▸ h.chain b
  · -- the new key is none of the old ones
    have hfresh := h.find_eq_none.mp hnew
    rcases Nat.lt_succ_iff_lt_or_eq.mp hi with hi | rfl
    · rcases Nat.lt_succ_iff_lt_or_eq.mp hj with hj | rfl
      · rw [hold hi, hold hj] at hij
        exact h.keys i hi j hj hij
      · rw [hold hi, hself] at hij
        exact absurd hij (hfresh i hi)
    · rcases Nat.lt_succ_iff_lt_or_eq.mp hj with hj | rfl
      · rw [hold hj, hself] at hij
        exact absurd hij.symm (hfresh j hj)
      · rfl

/-! ## The records as a list -/

/-- Searching the list finds what searching the chain finds. -/
theorem find?_records (k : κ) :
    t.records.find? (fun a => key a == k) = (t.find key hash k).map t.mem := by
  have hlru : t.lru.find? (fun i => key (t.mem i) == k) = t.find key hash k := by
    refine Option.ext (fun i => ?_)
    rw [h.find_eq_some]
    constructor
    · intro hfind
      exact ⟨h.mem_lru.mp (List.mem_of_find?_eq_some hfind), by simpa using List.find?_some hfind⟩
    · rintro ⟨hi, hkey⟩
      cases hfind : t.lru.find? (fun i => key (t.mem i) == k) with
      | none =>
        have := List.find?_eq_none.mp hfind i (h.mem_lru.mpr hi)
        simp [hkey] at this
      | some j =>
        have hj : key (t.mem j) = k := by simpa using List.find?_some hfind
        have hmade := h.mem_lru.mp (List.mem_of_find?_eq_some hfind)
        rw [h.keys j hmade i hi (hj.trans hkey.symm)]
  rw [records, List.find?_map, ← hlru]
  rfl

/-- A record that is touched leaves its place for the head. -/
theorem records_touch {i : ℕ} (hi : i < t.made) :
    (t.touch i).records = t.mem i :: t.records.eraseP (fun a => key a == key (t.mem i)) := by
  have herase : t.lru.eraseP (fun j => key (t.mem j) == key (t.mem i)) = t.lru.erase i := by
    rw [List.erase_eq_eraseP]
    refine List.eraseP_congr_of_mem (fun j hj => ?_)
    rw [Bool.eq_iff_iff, beq_iff_eq, beq_iff_eq]
    exact ⟨fun hkey => (h.keys j (h.mem_lru.mp hj) i hi hkey).symm, fun hji => by rw [hji]⟩
  show t.mem i :: (t.lru.erase i).map t.mem = _
  rw [records, List.eraseP_map, ← herase]
  rfl

/-- A record that is changed stays where it is. -/
theorem records_store {i : ℕ} {a : α} (hi : i < t.made) (hkey : key a = key (t.mem i)) :
    (t.store i a).records = t.records.modifyFirst (fun b => key b == key a) (fun _ => a) := by
  have hmap (l : List ℕ) (hl : ∀ j ∈ l, j < t.made) (hnodup : l.Nodup) (hmem : i ∈ l) :
      l.map (Function.update t.mem i a)
        = (l.map t.mem).modifyFirst (fun b => key b == key a) (fun _ => a) := by
    induction l with
    | nil => cases hmem
    | cons j l ih =>
      obtain ⟨hj, hl⟩ := List.forall_mem_cons.mp hl
      obtain ⟨hjl, hnodup⟩ := List.nodup_cons.mp hnodup
      rw [List.map_cons, List.map_cons, List.modifyFirst]
      by_cases hji : j = i
      · subst hji
        rw [if_pos (beq_iff_eq.mpr hkey.symm), Function.update_self]
        refine congrArg (a :: ·) (List.map_congr_left (fun x hx => ?_))
        refine Function.update_of_ne (fun hxj => hjl ?_) _ _
        rw [← hxj]
        exact hx
      · have hne : ¬ (key (t.mem j) == key a) = true := fun hkeys =>
          hji (h.keys j hj i hi ((beq_iff_eq.mp hkeys).trans hkey))
        rw [if_neg hne, Function.update_of_ne hji]
        refine congrArg (t.mem j :: ·) (ih hl hnodup ?_)
        exact (List.mem_cons.mp hmem).resolve_left (Ne.symm hji)
  exact hmap t.lru (fun j => h.mem_lru.mp) h.nodup (h.mem_lru.mpr hi)

end Sound

end ChainTable

/-! ## Walking a list that changes -/

section Walk

variable [DecidableEq κ] {σ : Type}

/-- The element behind another on a list. -/
def List.behind (l : List κ) (i : κ) : Option κ := (l.dropWhile (· != i)).tail.head?

theorem List.behind_of_split {l₁ l₂ : List κ} {i : κ} (hi : i ∉ l₁) :
    (l₁ ++ i :: l₂).behind i = l₂.head? := by
  have hdrop : (l₁ ++ i :: l₂).dropWhile (· != i) = i :: l₂ := by
    induction l₁ with
    | nil => exact List.dropWhile_cons_of_neg (by simp)
    | cons j l₁ ih =>
      obtain ⟨hij, hi⟩ := not_or.mp (fun hmem => hi (List.mem_cons.mpr hmem))
      rw [List.cons_append, List.dropWhile_cons_of_pos (by simpa using Ne.symm hij)]
      exact ih hi
  rw [List.behind, hdrop]
  rfl

/-- Walk along the links of a list: visit an element, then look up what stands behind it
*now*. The result is the state at the end and the elements visited. -/
def walkList (lru : σ → List κ) (visit : σ → κ → σ) : ℕ → Option κ → σ → σ × List κ
  | 0, _, s => (s, [])
  | _ + 1, none, s => (s, [])
  | fuel + 1, some i, s =>
    let s := visit s i
    let r := walkList lru visit fuel ((lru s).behind i) s
    (r.1, i :: r.2)

/-- **A walk visits what was there when it began**, once each and in order, if a visit only
links in front of what is there. The induction is on what is left to visit, which is the
end of the list at every moment. -/
theorem walkList_eq_foldl {lru : σ → List κ} {visit : σ → κ → σ} {inv : σ → Prop}
    (hnodup : ∀ s, inv s → (lru s).Nodup)
    (hvisit : ∀ s i, inv s → inv (visit s i) ∧ ∃ new, lru (visit s i) = new ++ lru s)
    {fuel : ℕ} {s : σ} {seen rest : List κ} (hinv : inv s) (hlru : lru s = seen ++ rest)
    (hfuel : rest.length ≤ fuel) :
    walkList lru visit fuel rest.head? s = (rest.foldl visit s, rest) := by
  induction rest generalizing fuel s seen with
  | nil => cases fuel <;> rfl
  | cons i rest ih =>
    obtain ⟨fuel, rfl⟩ : ∃ n, fuel = n + 1 := Nat.exists_eq_succ_of_ne_zero (by
      rintro rfl
      exact absurd hfuel (Nat.not_succ_le_zero _))
    obtain ⟨hinv', new, hnew⟩ := hvisit s i hinv
    have hsplit : lru (visit s i) = (new ++ seen) ++ i :: rest := by
      rw [hnew, hlru, List.append_assoc]
    have hi : i ∉ new ++ seen := by
      have := hnodup _ hinv'
      rw [hsplit] at this
      exact fun hmem => (List.disjoint_of_nodup_append this) hmem List.mem_cons_self
    have hleft : lru (visit s i) = (new ++ seen ++ [i]) ++ rest := by
      rw [hsplit, List.append_cons]
    rw [List.head?_cons, walkList, hsplit, List.behind_of_split hi,
      ih hinv' hleft (Nat.le_of_succ_le_succ hfuel)]
    rfl

end Walk
