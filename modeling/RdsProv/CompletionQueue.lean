import RdsProv.Endpoint
import RdsProv.Lib.Cirque
import RdsProv.Lib.Run

/-!
# The completion queue under the provider

`rds_cq_open` gives the application a queue of the utility layer. Its entries lie in a
circular queue of fixed size, but it never overflows: an error, and a completion for which
fewer than two slots are free, goes to an **auxiliary list**, and a slot of the circular
queue stands for it, marked by a flag. Once the circular queue is full its last slot stands
for everything that is added, so one slot may stand for a whole stretch of the list.

The two structures are read as one queue. What relates them to it is `UtilCq.Holds`: each
slot in use is a plain entry or stands for a stretch of the auxiliary list, the list is those
stretches in the order of the slots, and the last slot of a full queue is one of the latter,
so that nothing plain is ever overwritten. Each operation keeps it, and along any history of
writes and reads the queue is first in, first out, without loss and without repetition
(`completions_first_in_first_out`).

The provider ignores what a write returns (`rds_cq_write_tx`, `rds_cq_write_rx`), so a
completion that is refused is lost; that happens only where the record for the auxiliary list
cannot be allocated.
-/

/-- `UTIL_FLAG_AUX`. -/
abbrev utilFlagAux : UInt64 := 0x2000000000000000

theorem hasFlag_utilFlagAux : hasFlag utilFlagAux utilFlagAux = true := by decide

/-- `enum fi_cq_format`; an unspecified format is `FI_CQ_FORMAT_CONTEXT`. -/
inductive CqFormat where
  | context
  | msg
  | data
  | tagged
  deriving DecidableEq, Repr

/-- `struct fi_cq_tagged_entry`, without `buf`, which the provider leaves `NULL`. -/
structure CqSlot where
  context : ℕ
  flags : UInt64
  len : ℕ
  data : UInt64
  tag : UInt64
  deriving DecidableEq, Repr

/-- What of a completion is in a slot. -/
def CqEntry.slot (e : CqEntry) : CqSlot := ⟨e.context, e.flags, e.len, e.data, e.tag⟩

/-- What the application is handed: the fields of its format. -/
structure CqRead where
  context : ℕ
  flagsLen : Option (UInt64 × ℕ)
  data : Option UInt64
  tag : Option UInt64
  deriving DecidableEq, Repr

/-- `read_entry`: `util_cq_read_ctx`, `_msg`, `_data` and `_tagged`. -/
def CqFormat.readEntry (f : CqFormat) (s : CqSlot) : CqRead where
  context := s.context
  flagsLen := if f = .context then none else some (s.flags, s.len)
  data := if f = .data ∨ f = .tagged then some s.data else none
  tag := if f = .tagged then some s.tag else none

/-- `struct util_cq_aux_entry`; `cq_slot` is kept as the index of the slot. -/
structure AuxEntry where
  cqSlot : ℕ
  comp : CqSlot
  err : ℕ
  src : UInt64
  deriving DecidableEq, Repr

/-- `struct util_cq`. -/
structure UtilCq where
  cirq : Cirque CqSlot
  /-- Source addresses by slot, if the domain was opened with `FI_SOURCE`. -/
  src : Option (ℕ → UInt64)
  auxQueue : List AuxEntry
  format : CqFormat

/-- One completion, as the application gets it. -/
inductive CqTaken where
  | success (r : CqRead) (src : UInt64)
  | error (s : CqSlot) (err : ℕ)
  deriving DecidableEq, Repr

/-- What `fi_cq_readfrom` returns: `-FI_EAGAIN`, `-FI_EAVAIL` or a number of entries. -/
inductive CqReadRet where
  | again
  | avail
  | entries (ts : List CqTaken)
  deriving DecidableEq, Repr

/-! ## Writing -/

/-- `util_cq_insert_aux`. -/
def utilCqInsertAux (cq : UtilCq) (comp : CqSlot) (err : ℕ) (src : UInt64) : UtilCq :=
  let cirq := if cq.cirq.isFull then cq.cirq else cq.cirq.commit
  let i := cirq.tindex
  { cq with
    cirq := cirq.set i { cirq.buf i with flags := utilFlagAux }
    auxQueue := cq.auxQueue ++ [⟨i, comp, err, src⟩] }

/-- `ofi_cq_write_overflow`. -/
def ofiCqWriteOverflow (alloc : Bool) (cq : UtilCq) (s : CqSlot) (src : UInt64) : UtilCq × Ret :=
  if alloc then (utilCqInsertAux cq s 0 src, .ok) else (cq, .err fiEnomem)

/-- `ofi_cq_write_entry`. -/
def ofiCqWriteEntry (cq : UtilCq) (s : CqSlot) : UtilCq :=
  { cq with cirq := (cq.cirq.set cq.cirq.windex s).commit }

/-- `ofi_cq_write_src_entry`. The source writes through `cq->src` without a check; the
queue of an endpoint with `FI_SOURCE` has it. -/
def ofiCqWriteSrcEntry (cq : UtilCq) (s : CqSlot) (src : UInt64) : UtilCq :=
  ofiCqWriteEntry { cq with src := cq.src.map (fun f => Function.update f cq.cirq.windex src) } s

/-- `ofi_cq_write`. -/
def ofiCqWrite (alloc : Bool) (cq : UtilCq) (s : CqSlot) : UtilCq × Ret :=
  if 1 < cq.cirq.freecnt then (ofiCqWriteEntry cq s, .ok)
  else ofiCqWriteOverflow alloc cq s fiAddrNotavail

/-- `ofi_cq_write_src`. -/
def ofiCqWriteSrc (alloc : Bool) (cq : UtilCq) (s : CqSlot) (src : UInt64) : UtilCq × Ret :=
  if 1 < cq.cirq.freecnt then (ofiCqWriteSrcEntry cq s src, .ok)
  else ofiCqWriteOverflow alloc cq s src

/-- `ofi_cq_write_error`, for an error without data. -/
def ofiCqWriteError (alloc : Bool) (cq : UtilCq) (s : CqSlot) (err : ℕ) : UtilCq × Ret :=
  if alloc then (utilCqInsertAux cq s err 0, .ok) else (cq, .err fiEnomem)

/-- The calls in `rds_cq_write_tx` and `rds_cq_write_rx`. -/
def UtilCq.write (alloc : Bool) (cq : UtilCq) (e : CqEntry) : UtilCq × Ret :=
  if e.err ≠ 0 then ofiCqWriteError alloc cq e.slot e.err
  else e.src.elim (ofiCqWrite alloc cq e.slot) (ofiCqWriteSrc alloc cq e.slot)

/-! ## Reading -/

/-- The head of the auxiliary list is freed, and the slot that stood for it is discarded
unless it stands for the next entry too. -/
def UtilCq.dropAux (cq : UtilCq) (rest : List AuxEntry) : UtilCq :=
  { cq with
    auxQueue := rest
    cirq := if rest.head?.map AuxEntry.cqSlot = some cq.cirq.rindex then cq.cirq
      else cq.cirq.discard }

/-- The body of the loop of `ofi_cq_read_entries`; `none` where it breaks at an error. -/
def ofiCqReadEntry (cq : UtilCq) : Option (UtilCq × CqTaken) :=
  if hasFlag cq.cirq.head.flags utilFlagAux = false then
    some ({ cq with cirq := cq.cirq.discard },
      .success (cq.format.readEntry cq.cirq.head)
        (cq.src.elim fiAddrNotavail (fun f => f cq.cirq.rindex)))
  else
    match cq.auxQueue with
    | [] => none
    | a :: rest =>
      if a.err ≠ 0 then none
      else some (cq.dropAux rest,
        .success (cq.format.readEntry a.comp) (cq.src.elim fiAddrNotavail (fun _ => a.src)))

/-- The loop of `ofi_cq_read_entries`. -/
def ofiCqReadLoop : ℕ → UtilCq → List CqTaken → UtilCq × List CqTaken
  | 0, cq, out => (cq, out)
  | n + 1, cq, out =>
    (ofiCqReadEntry cq).elim (cq, out) (fun r => ofiCqReadLoop n r.1 (out ++ [r.2]))

/-- `ofi_cq_read_entries`. The loop ends with nothing read and something asked for only
where its first round broke. -/
def ofiCqReadEntries (cq : UtilCq) (count : ℕ) : UtilCq × CqReadRet :=
  if cq.cirq.isEmpty then (cq, .again)
  else
    let r := ofiCqReadLoop (min count cq.cirq.usedcnt.toNat) cq []
    (r.1, if r.2 = [] ∧ count ≠ 0 then .avail else .entries r.2)

/-- `ofi_cq_readerr`; `none` is `-FI_EAGAIN`. -/
def ofiCqReaderr (cq : UtilCq) : UtilCq × Option CqTaken :=
  if cq.cirq.isEmpty || !hasFlag cq.cirq.head.flags utilFlagAux then (cq, none)
  else
    match cq.auxQueue with
    | [] => (cq, none)
    | a :: rest => if a.err = 0 then (cq, none) else (cq.dropAux rest, some (.error a.comp a.err))

/-! ## The queue the two structures stand for -/

/-- What a slot stands for: an entry of its own, or a stretch of the auxiliary list. -/
inductive CqCell where
  | plain (e : CqEntry)
  | listed (e : CqEntry) (es : List CqEntry)

namespace CqCell

def entries : CqCell → List CqEntry
  | plain e => [e]
  | listed e es => e :: es

def isListed : CqCell → Prop
  | plain _ => False
  | listed _ _ => True

end CqCell

/-- The record the auxiliary list has for a completion. -/
def CqEntry.auxAt (i : ℕ) (e : CqEntry) : AuxEntry :=
  ⟨i, e.slot, e.err, if e.err ≠ 0 then 0 else e.src.getD fiAddrNotavail⟩

/-- The part of the auxiliary list a slot stands for. -/
def CqCell.auxAt (i : ℕ) : CqCell → List AuxEntry
  | .plain _ => []
  | .listed e es => (e :: es).map (CqEntry.auxAt i)

/-- What a slot looks like. -/
def UtilCq.Shows (cq : UtilCq) (i : ℕ) : CqCell → Prop
  | .plain e => cq.cirq.buf i = e.slot ∧ hasFlag e.flags utilFlagAux = false ∧ e.err = 0
      ∧ ∀ s f, e.src = some s → cq.src = some f → f i = s
  | .listed _ _ => hasFlag (cq.cirq.buf i).flags utilFlagAux = true

/-- **The circular queue and the auxiliary list as one queue.** -/
structure UtilCq.Holds (cq : UtilCq) (cells : List (ℕ × CqCell)) : Prop where
  bounded : cq.cirq.Bounded
  places : cq.cirq.places = cells.map Prod.fst
  shows : ∀ x ∈ cells, cq.Shows x.1 x.2
  aux : cq.auxQueue = cells.flatMap (fun x => x.2.auxAt x.1)
  full : cq.cirq.isFull = true → ∃ x, cells.getLast? = some x ∧ x.2.isListed

/-- The completions in the queue, in order. -/
def CqCell.waiting (cells : List (ℕ × CqCell)) : List CqEntry :=
  cells.flatMap (fun x => x.2.entries)

namespace UtilCq.Holds

variable {cq : UtilCq} {cells : List (ℕ × CqCell)} {e : CqEntry}

theorem nodup (h : cq.Holds cells) : (cells.map Prod.fst).Nodup :=
  h.places ▸ Cirque.nodup_places h.bounded

theorem isEmpty_iff (h : cq.Holds cells) : cq.cirq.isEmpty = true ↔ cells = [] := by
  rw [Cirque.isEmpty_iff, h.places, List.map_eq_nil_iff]

/-- A slot that is not written shows what it showed. -/
theorem shows_set (h : cq.Holds cells) {cq' : UtilCq} {i : ℕ}
    (hbuf : ∀ j, j ≠ i → cq'.cirq.buf j = cq.cirq.buf j)
    (hsrc : ∀ f', cq'.src = some f' → ∃ f, cq.src = some f ∧ ∀ j, j ≠ i → f' j = f j)
    {x : ℕ × CqCell} (hx : x ∈ cells) (hne : x.1 ≠ i) : cq'.Shows x.1 x.2 := by
  have hold := h.shows x hx
  obtain ⟨j, cell⟩ := x
  cases cell with
  | plain e =>
    obtain ⟨hslot, hflag, herr, haddr⟩ := hold
    refine ⟨(hbuf j hne).trans hslot, hflag, herr, fun s f' hs hf' => ?_⟩
    obtain ⟨f, hf, heq⟩ := hsrc f' hf'
    exact (heq j hne).trans (haddr s f hs hf)
  | listed e es =>
    show hasFlag (cq'.cirq.buf j).flags utilFlagAux = true
    rw [hbuf j hne]
    exact hold

/-- Marking one slot leaves what the others show. -/
theorem shows_mark (h : cq.Holds cells) {c : Cirque CqSlot} (hbuf : c.buf = cq.cirq.buf)
    {i : ℕ} {slot : CqSlot} (aux : List AuxEntry) {x : ℕ × CqCell} (hx : x ∈ cells)
    (hne : x.1 ≠ i) :
    ({ cq with cirq := c.set i slot, auxQueue := aux } : UtilCq).Shows x.1 x.2 := by
  refine h.shows_set (i := i) (fun j hj => ?_) (fun f' hf' => ?_) hx hne
  · rw [← hbuf]
    exact Cirque.buf_set_of_ne _ hj
  · exact ⟨f', hf', fun _ _ => rfl⟩

/-- While two slots are free, the writer's is, and one remains after it. -/
theorem room_of_freecnt (h : cq.Holds cells) (hfree : 1 < cq.cirq.freecnt) :
    cq.cirq.usedcnt.toNat + 1 < cq.cirq.size.toNat := by
  have hlt := UInt64.lt_iff_toNat_lt.mp hfree
  rw [Cirque.freecnt_toNat h.bounded] at hlt
  have hone : (1 : UInt64).toNat = 1 := rfl
  omega

/-- **A completion in a slot of its own** is added at the end. -/
theorem write_plain (h : cq.Holds cells) (hfree : 1 < cq.cirq.freecnt)
    (hflag : hasFlag e.flags utilFlagAux = false) (herr : e.err = 0) {src : Option (ℕ → UInt64)}
    (hsrc : ∀ f', src = some f' →
      ∃ f, cq.src = some f ∧ ∀ j, j ≠ cq.cirq.windex → f' j = f j)
    (haddr : ∀ s f, e.src = some s → src = some f → f cq.cirq.windex = s) :
    (ofiCqWriteEntry { cq with src := src } e.slot).Holds
      (cells ++ [(cq.cirq.windex, .plain e)]) := by
  have hroom := h.room_of_freecnt hfree
  have hlt : cq.cirq.usedcnt.toNat < cq.cirq.size.toNat := by omega
  have hplaces : (ofiCqWriteEntry { cq with src := src } e.slot).cirq.places
      = cq.cirq.places ++ [cq.cirq.windex] := Cirque.places_commit hlt
  have hbounded : (ofiCqWriteEntry { cq with src := src } e.slot).cirq.Bounded :=
    Cirque.bounded_commit (c := cq.cirq.set cq.cirq.windex e.slot) hlt
  refine ⟨hbounded, ?_, ?_, ?_, ?_⟩
  · rw [hplaces, h.places, List.map_append]
    rfl
  · intro x hx
    obtain hold | hnew := List.mem_append.mp hx
    · refine h.shows_set (i := cq.cirq.windex) (fun j hj => Cirque.buf_set_of_ne _ hj) hsrc hold ?_
      intro heq
      refine Cirque.windex_notMem_places hlt ?_
      rw [h.places, ← heq]
      exact List.mem_map_of_mem hold
    · rw [List.mem_singleton.mp hnew]
      exact ⟨Cirque.buf_set_self _ _, hflag, herr, haddr⟩
  · rw [List.flatMap_append]
    exact h.aux.trans (List.append_nil _).symm
  · intro hfull
    have hused := (Cirque.isFull_iff hbounded).mp hfull
    have hcommit : (ofiCqWriteEntry { cq with src := src } e.slot).cirq.usedcnt.toNat
        = cq.cirq.usedcnt.toNat + 1 := Cirque.usedcnt_commit hlt
    rw [hcommit] at hused
    exact absurd hused hroom.ne

/-- A slot is discarded: what it stood for has left, and the queue is not full. -/
theorem discard {x : ℕ × CqCell} {aux : List AuxEntry} (h : cq.Holds (x :: cells))
    (haux : aux = cells.flatMap (fun y => y.2.auxAt y.1)) :
    ({ cq with cirq := cq.cirq.discard, auxQueue := aux } : UtilCq).Holds cells := by
  have hne : cq.cirq.isEmpty = false :=
    Bool.eq_false_iff.mpr fun hempty => List.cons_ne_nil _ _ (h.isEmpty_iff.mp hempty)
  have hplaces := h.places
  rw [Cirque.places_eq_cons hne, List.map_cons] at hplaces
  have hbounded := Cirque.bounded_discard h.bounded hne
  refine ⟨hbounded, (List.cons.inj hplaces).2, fun y hy => ?_, haux, fun hfull => ?_⟩
  · have hold := h.shows y (List.mem_cons_of_mem _ hy)
    obtain ⟨j, cell⟩ := y
    cases cell with
    | plain e => exact hold
    | listed e es => exact hold
  · have hused := (Cirque.isFull_iff hbounded).mp hfull
    have hlen := congrArg List.length (Cirque.places_eq_cons hne)
    rw [List.length_cons, Cirque.length_places, Cirque.length_places] at hlen
    have hle : cq.cirq.usedcnt.toNat ≤ cq.cirq.size.toNat := h.bounded
    have hsize : cq.cirq.discard.size = cq.cirq.size := rfl
    rw [hsize] at hused
    omega

/-- The first place is the reader's. -/
theorem rindex_eq {x : ℕ × CqCell} (h : cq.Holds (x :: cells)) : cq.cirq.rindex = x.1 := by
  have hne : cq.cirq.isEmpty = false :=
    Bool.eq_false_iff.mpr fun hempty => List.cons_ne_nil _ _ (h.isEmpty_iff.mp hempty)
  have hplaces := h.places
  rw [Cirque.places_eq_cons hne, List.map_cons] at hplaces
  exact (List.cons.inj hplaces).1

/-- The slots after a place stand for no record at that place. -/
theorem head?_ne {i : ℕ} (hi : i ∉ cells.map Prod.fst) :
    (cells.flatMap (fun y => y.2.auxAt y.1)).head?.map AuxEntry.cqSlot ≠ some i := by
  intro heq
  obtain ⟨a, ha, hslot⟩ := Option.map_eq_some_iff.mp heq
  obtain ⟨⟨j, cell⟩, hy, hmem⟩ := List.mem_flatMap.mp (List.mem_of_mem_head? ha)
  cases cell with
  | plain e => cases hmem
  | listed e es =>
    obtain ⟨e', -, rfl⟩ := List.mem_map.mp hmem
    exact hi (hslot ▸ List.mem_map_of_mem hy)

/-- **The head of the auxiliary list leaves.** Its slot goes with it exactly if it was the last
the slot stood for. -/
theorem dropAux {i : ℕ} {es : List CqEntry} (h : cq.Holds ((i, .listed e es) :: cells)) :
    ∃ cells', (cq.dropAux (es.map (CqEntry.auxAt i)
        ++ cells.flatMap (fun y => y.2.auxAt y.1))).Holds cells'
      ∧ CqCell.waiting cells' = es ++ CqCell.waiting cells
      ∧ cells.length ≤ cells'.length := by
  have hindex := h.rindex_eq
  cases es with
  | nil =>
    refine ⟨cells, ?_, rfl, le_rfl⟩
    have hne := head?_ne (List.nodup_cons.mp h.nodup).1
    rw [← hindex] at hne
    unfold UtilCq.dropAux
    rw [List.map_nil, List.nil_append, if_neg hne]
    exact h.discard rfl
  | cons e' es =>
    refine ⟨(i, .listed e' es) :: cells, ?_, rfl, Nat.le_succ _⟩
    have hsame : (((e' :: es).map (CqEntry.auxAt i)
        ++ cells.flatMap (fun y => y.2.auxAt y.1)).head?.map AuxEntry.cqSlot)
          = some cq.cirq.rindex := congrArg some hindex.symm
    unfold UtilCq.dropAux
    rw [if_pos hsame]
    refine ⟨h.bounded, h.places, fun y hy => ?_, rfl, fun hfull => ?_⟩
    · obtain rfl | hy := List.mem_cons.mp hy
      · exact h.shows _ List.mem_cons_self
      · have hold := h.shows y (List.mem_cons_of_mem _ hy)
        obtain ⟨j, cell⟩ := y
        cases cell with
        | plain e => exact hold
        | listed e es => exact hold
    · obtain ⟨x, hlast, hover⟩ := h.full hfull
      cases cells with
      | nil => exact ⟨(i, .listed e' es), rfl, trivial⟩
      | cons y ys =>
        rw [List.getLast?_cons_cons] at hlast
        exact ⟨x, by rw [List.getLast?_cons_cons]; exact hlast, hover⟩

/-- **A completion on the auxiliary list** is added at the end, with a slot of its own or,
where there is none, with the last slot. -/
theorem insertAux (h : cq.Holds cells) (e : CqEntry) :
    ∃ cells', (utilCqInsertAux cq e.slot e.err
        (if e.err ≠ 0 then 0 else e.src.getD fiAddrNotavail)).Holds cells'
      ∧ CqCell.waiting cells' = CqCell.waiting cells ++ [e] := by
  cases hfull : cq.cirq.isFull with
  | false =>
    have hlt : cq.cirq.usedcnt.toNat < cq.cirq.size.toNat := by
      have hle : cq.cirq.usedcnt.toNat ≤ cq.cirq.size.toNat := h.bounded
      refine lt_of_le_of_ne hle fun heq => ?_
      exact Bool.false_ne_true (hfull.symm.trans ((Cirque.isFull_iff h.bounded).mpr heq))
    refine ⟨cells ++ [(cq.cirq.windex, .listed e [])], ?_, ?_⟩
    · unfold utilCqInsertAux
      rw [hfull]
      dsimp only [Bool.false_eq_true, if_false]
      rw [if_neg Bool.false_ne_true, Cirque.tindex_commit]
      have hplaces : ∀ x, (cq.cirq.commit.set cq.cirq.windex x).places
          = cq.cirq.places ++ [cq.cirq.windex] := fun _ => Cirque.places_commit hlt
      refine ⟨Cirque.bounded_commit hlt, ?_, fun x hx => ?_, ?_, fun _ => ?_⟩
      · rw [hplaces, h.places, List.map_append]
        rfl
      · obtain hold | hnew := List.mem_append.mp hx
        · refine h.shows_mark rfl (cq.auxQueue ++ [e.auxAt cq.cirq.windex]) hold fun heq => ?_
          refine Cirque.windex_notMem_places hlt ?_
          rw [h.places, ← heq]
          exact List.mem_map_of_mem hold
        · rw [List.mem_singleton.mp hnew]
          show hasFlag (((cq.cirq.commit).set cq.cirq.windex _).buf cq.cirq.windex).flags _ = true
          rw [Cirque.buf_set_self]
          exact hasFlag_utilFlagAux
      · rw [List.flatMap_append, h.aux]
        rfl
      · exact ⟨_, List.getLast?_concat, trivial⟩
    · unfold CqCell.waiting
      rw [List.flatMap_append]
      rfl
  | true =>
    obtain ⟨⟨t, cell⟩, hlast, hover⟩ := h.full hfull
    cases cell with
    | plain => cases hover
    | listed e₀ es =>
      obtain ⟨init, rfl⟩ : ∃ init, cells = init ++ [(t, .listed e₀ es)] :=
        List.getLast?_eq_some_iff.mp hlast
      have hne : cq.cirq.isEmpty = false :=
        Bool.eq_false_iff.mpr fun hempty => by simpa using h.isEmpty_iff.mp hempty
      have htail : cq.cirq.tindex = t := by
        have hplace := Cirque.getLast?_places hne
        rw [h.places, List.map_append, List.map_singleton, List.getLast?_concat] at hplace
        exact (Option.some.inj hplace).symm
      have hfresh : ∀ x ∈ init, x.1 ≠ t := by
        have hnodup := h.nodup
        rw [List.map_append, List.nodup_append] at hnodup
        exact fun x hx => hnodup.2.2 x.1 (List.mem_map_of_mem hx) t List.mem_cons_self
      refine ⟨init ++ [(t, .listed e₀ (es ++ [e]))], ?_, ?_⟩
      · unfold utilCqInsertAux
        rw [hfull]
        dsimp only
        rw [if_pos rfl, htail]
        refine ⟨h.bounded, ?_, fun x hx => ?_, ?_, fun _ => ?_⟩
        · rw [List.map_append]
          exact h.places.trans (List.map_append)
        · obtain hold | hnew := List.mem_append.mp hx
          · exact h.shows_mark rfl (cq.auxQueue ++ [e.auxAt t]) (List.mem_append_left _ hold)
              (hfresh x hold)
          · rw [List.mem_singleton.mp hnew]
            show hasFlag ((cq.cirq.set t _).buf t).flags _ = true
            rw [Cirque.buf_set_self]
            exact hasFlag_utilFlagAux
        · dsimp only
          rw [h.aux, List.flatMap_append, List.flatMap_append, List.append_assoc]
          refine congrArg (init.flatMap (fun x => x.2.auxAt x.1) ++ ·) ?_
          show (e₀ :: es).map (CqEntry.auxAt t) ++ [] ++ [CqEntry.auxAt t e]
            = (e₀ :: (es ++ [e])).map (CqEntry.auxAt t) ++ []
          rw [List.append_nil, List.append_nil, List.map_cons, List.map_cons, List.map_append]
          rfl
        · exact ⟨_, List.getLast?_concat, trivial⟩
      · unfold CqCell.waiting
        rw [List.flatMap_append, List.flatMap_append, List.append_assoc]
        refine congrArg (init.flatMap (fun x => x.2.entries) ++ ·) ?_
        show (e₀ :: (es ++ [e])) ++ [] = (e₀ :: es) ++ [] ++ [e]
        rw [List.append_nil, List.append_nil, List.cons_append]

/-- **A write is refused or adds the completion at the end**; it is refused only if the
record for the auxiliary list cannot be allocated. -/
theorem write (h : cq.Holds cells) (alloc : Bool) (hflag : hasFlag e.flags utilFlagAux = false) :
    ((cq.write alloc e).2 = .ok ∧ ∃ cells', (cq.write alloc e).1.Holds cells'
        ∧ CqCell.waiting cells' = CqCell.waiting cells ++ [e])
      ∨ (alloc = false ∧ (cq.write alloc e).2 ≠ .ok ∧ (cq.write alloc e).1 = cq) := by
  unfold UtilCq.write
  have hinsert := h.insertAux e
  split
  · rename_i herr
    unfold ofiCqWriteError
    rw [if_pos herr] at hinsert
    cases alloc with
    | true => exact .inl ⟨rfl, hinsert⟩
    | false => exact .inr ⟨rfl, show Ret.err fiEnomem ≠ .ok by decide, rfl⟩
  rename_i herr
  have herr : e.err = 0 := not_not.mp herr
  rw [if_neg (not_not.mpr herr), herr] at hinsert
  have hwaiting : ∀ i, CqCell.waiting (cells ++ [(i, .plain e)]) = CqCell.waiting cells ++ [e] := by
    intro i
    unfold CqCell.waiting
    rw [List.flatMap_append]
    rfl
  cases hsrc : e.src with
  | none =>
    rw [hsrc] at hinsert
    unfold Option.elim ofiCqWrite
    dsimp only
    split
    · rename_i hfree
      refine .inl ⟨rfl, _, h.write_plain hfree hflag herr
        (fun f' hf' => ⟨f', hf', fun _ _ => rfl⟩) (fun s f hs _ => ?_), hwaiting _⟩
      rw [hsrc] at hs
      cases hs
    · unfold ofiCqWriteOverflow
      cases alloc with
      | true => exact .inl ⟨rfl, hinsert⟩
      | false => exact .inr ⟨rfl, show Ret.err fiEnomem ≠ .ok by decide, rfl⟩
  | some src =>
    rw [hsrc] at hinsert
    unfold Option.elim ofiCqWriteSrc
    dsimp only
    split
    · rename_i hfree
      refine .inl ⟨rfl, _, h.write_plain hfree hflag herr (fun f' hf' => ?_)
        (fun s f hs hf => ?_), hwaiting _⟩
      · obtain ⟨f, hf, rfl⟩ := Option.map_eq_some_iff.mp hf'
        exact ⟨f, hf, fun j hj => Function.update_of_ne hj _ _⟩
      · obtain ⟨g, -, rfl⟩ := Option.map_eq_some_iff.mp hf
        rw [hsrc] at hs
        rw [Function.update_self]
        exact Option.some.inj hs
    · unfold ofiCqWriteOverflow
      cases alloc with
      | true => exact .inl ⟨rfl, hinsert⟩
      | false => exact .inr ⟨rfl, show Ret.err fiEnomem ≠ .ok by decide, rfl⟩

end UtilCq.Holds

/-- What an application is handed is the completion: a success in the fields of the queue's
format, with the address it came from if the queue keeps them, and an error as it is. -/
def CqEntry.HandedAs (e : CqEntry) (format : CqFormat) (hasSrc : Bool) : CqTaken → Prop
  | .success r src => e.err = 0 ∧ r = format.readEntry e.slot
      ∧ if hasSrc then ∀ s, e.src = some s → src = s else src = fiAddrNotavail
  | .error s err => e.err = err ∧ err ≠ 0 ∧ s = e.slot

/-- **Some completions leave the queue at its head.** -/
structure UtilCq.Hands (cq : UtilCq) (cells : List (ℕ × CqCell)) (cq' : UtilCq)
    (cells' : List (ℕ × CqCell)) (gone : List CqEntry) (ts : List CqTaken) : Prop where
  holds : cq'.Holds cells'
  format : cq'.format = cq.format
  src : cq'.src = cq.src
  waiting : CqCell.waiting cells = gone ++ CqCell.waiting cells'
  handed : List.Forall₂ (fun e t => CqEntry.HandedAs e cq.format cq.src.isSome t) gone ts

namespace UtilCq.Hands

variable {cq cq' cq'' : UtilCq} {cells cells' cells'' : List (ℕ × CqCell)}
  {gone gone' : List CqEntry} {ts ts' : List CqTaken}

theorem refl (h : cq.Holds cells) : cq.Hands cells cq cells [] [] := ⟨h, rfl, rfl, rfl, .nil⟩

theorem trans (h : cq.Hands cells cq' cells' gone ts)
    (h' : cq'.Hands cells' cq'' cells'' gone' ts') :
    cq.Hands cells cq'' cells'' (gone ++ gone') (ts ++ ts') where
  holds := h'.holds
  format := h'.format.trans h.format
  src := h'.src.trans h.src
  waiting := by rw [h.waiting, h'.waiting, List.append_assoc]
  handed := by
    have hlater := h'.handed
    rw [h.format, h.src] at hlater
    exact List.rel_append h.handed hlater

end UtilCq.Hands

namespace UtilCq.Holds

variable {cq : UtilCq} {cells : List (ℕ × CqCell)} {x : ℕ × CqCell} {e : CqEntry}

/-- A success on the auxiliary list is handed out from its record there. -/
theorem handedAs_aux (herr : e.err = 0) (i : ℕ) :
    e.HandedAs cq.format cq.src.isSome (.success (cq.format.readEntry (e.auxAt i).comp)
      (cq.src.elim fiAddrNotavail (fun _ => (e.auxAt i).src))) := by
  refine ⟨herr, rfl, ?_⟩
  cases cq.src with
  | none => exact rfl
  | some f =>
    intro s hs
    show (if e.err ≠ 0 then 0 else e.src.getD fiAddrNotavail) = s
    rw [if_neg (not_not.mpr herr), hs]
    rfl

/-- **One round of the read loop** hands out the completion at the head, or breaks because it
is an error. Either way at most one slot is given up. -/
theorem readEntry (h : cq.Holds (x :: cells)) :
    (∃ e es, x.2.entries = e :: es ∧ e.err ≠ 0 ∧ ofiCqReadEntry cq = none)
      ∨ ∃ cq' cells' e t, ofiCqReadEntry cq = some (cq', t)
        ∧ cq.Hands (x :: cells) cq' cells' [e] [t] ∧ e.err = 0
        ∧ cells.length ≤ cells'.length := by
  obtain ⟨i, cell⟩ := x
  have hindex : cq.cirq.rindex = i := h.rindex_eq
  have hshows := h.shows _ List.mem_cons_self
  unfold ofiCqReadEntry
  cases cell with
  | plain e =>
    obtain ⟨hslot, hflag, herr, haddr⟩ := hshows
    have hhead : cq.cirq.head = e.slot := by
      rw [Cirque.head, hindex]
      exact hslot
    have hclear : hasFlag cq.cirq.head.flags utilFlagAux = false := by
      rw [hhead]
      exact hflag
    rw [if_pos hclear]
    refine .inr ⟨_, cells, e, _, rfl, ⟨h.discard h.aux, rfl, rfl, rfl, ?_⟩, herr, le_rfl⟩
    refine .cons ⟨herr, by rw [hhead], ?_⟩ .nil
    cases hsrc : cq.src with
    | none => exact rfl
    | some f =>
      intro s hs
      show f cq.cirq.rindex = s
      rw [hindex]
      exact haddr s f hs hsrc
  | listed e es =>
    have hmarked : ¬ hasFlag cq.cirq.head.flags utilFlagAux = false := by
      rw [Cirque.head, hindex, Bool.not_eq_false]
      exact hshows
    have haux : cq.auxQueue = e.auxAt i :: (es.map (CqEntry.auxAt i)
        ++ cells.flatMap (fun y => y.2.auxAt y.1)) := h.aux
    rw [if_neg hmarked, haux]
    dsimp only
    split
    · rename_i herr
      exact .inl ⟨e, es, rfl, herr, rfl⟩
    · rename_i herr
      obtain ⟨cells', hholds, hwaiting, hlen⟩ := h.dropAux
      refine .inr ⟨_, cells', e, _, rfl, ⟨hholds, rfl, rfl, ?_, ?_⟩, not_not.mp herr,
        hlen⟩
      · rw [hwaiting]
        rfl
      · exact .cons (handedAs_aux (not_not.mp herr) i) .nil

/-- The loop hands out successes from the head. It stops short of its count only at an
error. -/
theorem readLoop (n : ℕ) (hn : n ≤ cells.length) (h : cq.Holds cells) (out : List CqTaken) :
    ∃ cells' gone ts, (ofiCqReadLoop n cq out).2 = out ++ ts
      ∧ cq.Hands cells (ofiCqReadLoop n cq out).1 cells' gone ts
      ∧ (∀ e ∈ gone, e.err = 0)
      ∧ (ts.length < n → ∃ e es, CqCell.waiting cells' = e :: es ∧ e.err ≠ 0) := by
  induction n generalizing cq cells out with
  | zero =>
    exact ⟨cells, [], [], (List.append_nil _).symm, .refl h,
      fun e he => (List.not_mem_nil he).elim, fun hlt => absurd hlt (Nat.not_lt_zero _)⟩
  | succ n ih =>
    obtain _ | ⟨x, cells⟩ := cells
    · cases hn
    unfold ofiCqReadLoop
    obtain ⟨e, es, hentries, herr, hnone⟩ | ⟨cq', cells', e, t, hsome, hhands, herr, hlen⟩ :=
      h.readEntry
    · rw [hnone]
      refine ⟨x :: cells, [], [], (List.append_nil _).symm, .refl h,
        fun e he => (List.not_mem_nil he).elim, fun _ => ?_⟩
      refine ⟨e, es ++ CqCell.waiting cells, ?_, herr⟩
      show x.2.entries ++ CqCell.waiting cells = _
      rw [hentries]
      rfl
    · rw [hsome]
      obtain ⟨cells'', gone, ts, hout, hrest, hclear, hstop⟩ :=
        ih ((Nat.le_of_succ_le_succ hn).trans hlen) hhands.holds (out ++ [t])
      refine ⟨cells'', e :: gone, t :: ts, ?_, hhands.trans hrest,
        List.forall_mem_cons.mpr ⟨herr, hclear⟩, fun hlt => ?_⟩
      · exact hout.trans (List.append_assoc _ _ _)
      · exact hstop (Nat.lt_of_succ_lt_succ hlt)

theorem length_cells (h : cq.Holds cells) : cells.length = cq.cirq.usedcnt.toNat := by
  rw [← Cirque.length_places, h.places, List.length_map]

/-- `ofi_cq_read_entries` hands out successes from the head, and says so. -/
theorem readEntries (h : cq.Holds cells) (count : ℕ) :
    ∃ cells' gone ts, cq.Hands cells (ofiCqReadEntries cq count).1 cells' gone ts
      ∧ (∀ e ∈ gone, e.err = 0)
      ∧ ((ofiCqReadEntries cq count).2 = .entries ts
        ∨ (ts = [] ∧ CqCell.waiting cells = [] ∧ (ofiCqReadEntries cq count).2 = .again)
        ∨ (ts = [] ∧ (ofiCqReadEntries cq count).2 = .avail
          ∧ ∃ e es, CqCell.waiting cells = e :: es ∧ e.err ≠ 0))
      ∧ (count ≠ 0 → (ofiCqReadEntries cq count).2 ≠ .entries []) := by
  unfold ofiCqReadEntries
  cases hempty : cq.cirq.isEmpty with
  | true =>
    rw [if_pos rfl, h.isEmpty_iff.mp hempty]
    refine ⟨[], [], [], .refl ?_, fun e he => (List.not_mem_nil he).elim,
      .inr (.inl ⟨rfl, rfl, rfl⟩), fun _ hret => by cases hret⟩
    exact h.isEmpty_iff.mp hempty ▸ h
  | false =>
    rw [if_neg Bool.false_ne_true]
    dsimp only
    have hne : cells ≠ [] := fun hnil =>
      Bool.false_ne_true (hempty.symm.trans (h.isEmpty_iff.mpr hnil))
    have hpos : 0 < cells.length := List.length_pos_iff.mpr hne
    obtain ⟨cells', gone, ts, hout, hhands, hclear, hstop⟩ :=
      h.readLoop (min count cq.cirq.usedcnt.toNat)
        ((Nat.min_le_right _ _).trans h.length_cells.ge) []
    rw [hout, List.nil_append]
    refine ⟨cells', gone, ts, hhands, hclear, ?_, ?_⟩
    · split
      · rename_i hnone
        obtain ⟨rfl, hcount⟩ := hnone
        have hgone : gone = [] := List.forall₂_nil_right_iff.mp hhands.handed
        have hlt : ([] : List CqTaken).length < min count cq.cirq.usedcnt.toNat := by
          rw [← h.length_cells]
          exact Nat.lt_min.mpr ⟨Nat.pos_of_ne_zero hcount, hpos⟩
        refine .inr (.inr ⟨rfl, rfl, ?_⟩)
        rw [hhands.waiting, hgone]
        exact hstop hlt
      · exact .inl rfl
    · intro hcount
      split
      · exact fun hret => by cases hret
      · rename_i hsome
        intro hret
        exact hsome ⟨CqReadRet.entries.inj hret, hcount⟩

/-- `ofi_cq_readerr` hands out the completion at the head if that is an error. -/
theorem readerr (h : cq.Holds cells) :
    ((ofiCqReaderr cq = (cq, none)) ∧ ∀ e es, CqCell.waiting cells = e :: es → e.err = 0)
      ∨ ∃ cells' e, cq.Hands cells (ofiCqReaderr cq).1 cells' [e] [.error e.slot e.err]
        ∧ (ofiCqReaderr cq).2 = some (.error e.slot e.err) := by
  unfold ofiCqReaderr
  obtain _ | ⟨⟨i, cell⟩, cells⟩ := cells
  · rw [h.isEmpty_iff.mpr rfl, Bool.true_or, if_pos rfl]
    exact .inl ⟨rfl, fun e es hnil => by cases hnil⟩
  have hempty : cq.cirq.isEmpty = false :=
    Bool.eq_false_iff.mpr fun hempty => List.cons_ne_nil _ _ (h.isEmpty_iff.mp hempty)
  have hindex : cq.cirq.rindex = i := h.rindex_eq
  have hshows := h.shows _ List.mem_cons_self
  rw [hempty, Bool.false_or]
  cases cell with
  | plain e =>
    obtain ⟨hslot, hflag, herr, -⟩ := hshows
    have hclear : hasFlag cq.cirq.head.flags utilFlagAux = false := by
      rw [Cirque.head, hindex, hslot]
      exact hflag
    rw [hclear, Bool.not_false, if_pos rfl]
    refine .inl ⟨rfl, fun e' es heq => ?_⟩
    rw [← (List.cons.inj heq).1]
    exact herr
  | listed e es =>
    have hmarked : hasFlag cq.cirq.head.flags utilFlagAux = true := by
      rw [Cirque.head, hindex]
      exact hshows
    have haux : cq.auxQueue = e.auxAt i :: (es.map (CqEntry.auxAt i)
        ++ cells.flatMap (fun y => y.2.auxAt y.1)) := h.aux
    rw [hmarked, Bool.not_true, if_neg Bool.false_ne_true, haux]
    dsimp only
    split
    · rename_i herr
      refine .inl ⟨rfl, fun e' es' heq => ?_⟩
      rw [← (List.cons.inj heq).1]
      exact herr
    · rename_i herr
      obtain ⟨cells', hholds, hwaiting, -⟩ := h.dropAux
      refine .inr ⟨cells', e, ⟨hholds, rfl, rfl, ?_, ?_⟩, rfl⟩
      · rw [hwaiting]
        rfl
      · exact .cons ⟨rfl, herr, rfl⟩ .nil

end UtilCq.Holds

/-! ## Histories of a queue -/

/-- The queue `ofi_cq_init` makes, of a size that is already rounded up. -/
def ofiCqInit (size : UInt64) (pow2 : ∃ k, size.toNat = 2 ^ k) (hasSrc : Bool)
    (format : CqFormat) : UtilCq where
  cirq := ⟨size, 0, 0, fun _ => ⟨0, 0, 0, 0, 0⟩, pow2⟩
  src := if hasSrc then some (fun _ => 0) else none
  auxQueue := []
  format := format

/-- What is done to a queue: the provider reports a completion, and the application reads. -/
inductive CqOp where
  | write (alloc : Bool) (e : CqEntry)
  | read (count : ℕ)
  | readerr

/-- A queue with what it has accepted and what it has handed out. -/
structure CqHistory where
  cq : UtilCq
  accepted : List CqEntry
  taken : List CqTaken

/-- The entries a read returned. -/
def CqReadRet.taken : CqReadRet → List CqTaken
  | entries ts => ts
  | _ => []

namespace CqHistory

def step (s : CqHistory) : CqOp → CqHistory
  | .write alloc e =>
    { s with
      cq := (s.cq.write alloc e).1
      accepted := if (s.cq.write alloc e).2 = .ok then s.accepted ++ [e] else s.accepted }
  | .read count =>
    { s with
      cq := (ofiCqReadEntries s.cq count).1
      taken := s.taken ++ (ofiCqReadEntries s.cq count).2.taken }
  | .readerr =>
    { s with cq := (ofiCqReaderr s.cq).1, taken := s.taken ++ (ofiCqReaderr s.cq).2.toList }

/-- The bit that marks slots is the queue's own, and an address is reported only to a queue
that keeps them. -/
def Admits (s : CqHistory) : CqOp → Prop
  | .write _ e => hasFlag e.flags utilFlagAux = false ∧ (e.src.isSome → s.cq.src.isSome)
  | _ => True

/-- What holds along a history. -/
structure Fifo (format : CqFormat) (hasSrc : Bool) (s : CqHistory) (cells : List (ℕ × CqCell))
    (gone : List CqEntry) : Prop where
  holds : s.cq.Holds cells
  format_eq : s.cq.format = format
  src_eq : s.cq.src.isSome = hasSrc
  accepted : s.accepted = gone ++ CqCell.waiting cells
  handed : List.Forall₂ (fun e t => CqEntry.HandedAs e format hasSrc t) gone s.taken

variable {format : CqFormat} {hasSrc : Bool} {s : CqHistory} {cells cells' : List (ℕ × CqCell)}
  {gone : List CqEntry}

/-- What is handed out goes to the end of what was. -/
theorem Fifo.hands (h : s.Fifo format hasSrc cells gone) {cq' : UtilCq} {more : List CqEntry}
    {ts : List CqTaken} (hhands : s.cq.Hands cells cq' cells' more ts) :
    ({ s with cq := cq', taken := s.taken ++ ts } : CqHistory).Fifo format hasSrc cells'
      (gone ++ more) where
  holds := hhands.holds
  format_eq := hhands.format.trans h.format_eq
  src_eq := by
    rw [← h.src_eq, ← hhands.src]
  accepted := by
    show s.accepted = _
    rw [h.accepted, hhands.waiting, List.append_assoc]
  handed := by
    have hmore := hhands.handed
    rw [h.format_eq, h.src_eq] at hmore
    exact List.rel_append h.handed hmore

/-- A write changes neither the format nor whether addresses are kept. -/
theorem write_frame (cq : UtilCq) (alloc : Bool) (e : CqEntry) :
    (cq.write alloc e).1.format = cq.format
      ∧ (cq.write alloc e).1.src.isSome = cq.src.isSome := by
  unfold UtilCq.write ofiCqWriteError
  split
  · split
    · exact ⟨rfl, rfl⟩
    · exact ⟨rfl, rfl⟩
  cases e.src with
  | none =>
    show (ofiCqWrite alloc cq e.slot).1.format = _ ∧ (ofiCqWrite alloc cq e.slot).1.src.isSome = _
    unfold ofiCqWrite ofiCqWriteOverflow
    split
    · exact ⟨rfl, rfl⟩
    split
    · exact ⟨rfl, rfl⟩
    · exact ⟨rfl, rfl⟩
  | some a =>
    show (ofiCqWriteSrc alloc cq e.slot a).1.format = _
      ∧ (ofiCqWriteSrc alloc cq e.slot a).1.src.isSome = _
    unfold ofiCqWriteSrc ofiCqWriteOverflow
    split
    · exact ⟨rfl, Option.isSome_map⟩
    split
    · exact ⟨rfl, rfl⟩
    · exact ⟨rfl, rfl⟩

/-- **Each operation keeps the order.** -/
theorem Fifo.step (h : s.Fifo format hasSrc cells gone) (op : CqOp) (hadm : s.Admits op) :
    ∃ cells' gone', (s.step op).Fifo format hasSrc cells' gone' := by
  cases op with
  | write alloc e =>
    obtain ⟨hformat, hsrc⟩ := write_frame s.cq alloc e
    obtain ⟨hret, cells', hholds, hwaiting⟩ | ⟨-, hret, hsame⟩ := h.holds.write alloc hadm.1
    · refine ⟨cells', gone, hholds, hformat.trans h.format_eq, hsrc.trans h.src_eq, ?_, h.handed⟩
      show (if (s.cq.write alloc e).2 = .ok then s.accepted ++ [e] else s.accepted) = _
      rw [if_pos hret, h.accepted, hwaiting, List.append_assoc]
    · refine ⟨cells, gone, ?_, hformat.trans h.format_eq, hsrc.trans h.src_eq, ?_, h.handed⟩
      · show (s.cq.write alloc e).1.Holds cells
        rw [hsame]
        exact h.holds
      · show (if (s.cq.write alloc e).2 = .ok then s.accepted ++ [e] else s.accepted) = _
        rw [if_neg hret]
        exact h.accepted
  | read count =>
    obtain ⟨cells', more, ts, hhands, -, hret, -⟩ := h.holds.readEntries count
    have htaken : (ofiCqReadEntries s.cq count).2.taken = ts := by
      obtain hret | ⟨rfl, -, hret⟩ | ⟨rfl, hret, -⟩ := hret
      · rw [hret]
        rfl
      · rw [hret]
        rfl
      · rw [hret]
        rfl
    refine ⟨cells', gone ++ more, ?_⟩
    unfold CqHistory.step
    dsimp only
    rw [htaken]
    exact h.hands hhands
  | readerr =>
    unfold CqHistory.step
    dsimp only
    obtain ⟨hnone, -⟩ | ⟨cells', e, hhands, hsome⟩ := h.holds.readerr
    · rw [hnone]
      exact ⟨cells, gone ++ [], h.hands (.refl h.holds)⟩
    · rw [hsome]
      exact ⟨cells', gone ++ [e], h.hands hhands⟩

/-- A success that waits is the first that the next read hands out. -/
theorem Fifo.read_next (h : s.Fifo format hasSrc cells gone) {e : CqEntry} {es : List CqEntry}
    (hwaiting : CqCell.waiting cells = e :: es) (herr : e.err = 0) {count : ℕ}
    (hcount : count ≠ 0) :
    ∃ t ts, (ofiCqReadEntries s.cq count).2 = .entries (t :: ts)
      ∧ e.HandedAs format hasSrc t := by
  obtain ⟨cells', more, ts, hhands, -, hret, hsome⟩ := h.holds.readEntries count
  have hhead := hhands.waiting
  rw [hwaiting] at hhead
  obtain hret | ⟨-, hnil, -⟩ | ⟨-, -, e', es', heq, herr'⟩ := hret
  · obtain _ | ⟨t, ts⟩ := ts
    · exact absurd hret (hsome hcount)
    obtain ⟨e', more, hfirst, -, rfl⟩ := List.forall₂_cons_right_iff.mp hhands.handed
    rw [(List.cons.inj hhead).1]
    rw [h.format_eq, h.src_eq] at hfirst
    exact ⟨t, ts, hret, hfirst⟩
  · rw [hwaiting] at hnil
    cases hnil
  · rw [hwaiting] at heq
    exact absurd ((congrArg CqEntry.err (List.cons.inj heq).1).symm.trans herr) herr'

/-- An error that waits holds reads off, and `fi_cq_readerr` hands it out. -/
theorem Fifo.readerr_next (h : s.Fifo format hasSrc cells gone) {e : CqEntry} {es : List CqEntry}
    (hwaiting : CqCell.waiting cells = e :: es) (herr : e.err ≠ 0) :
    (∀ count, count ≠ 0 → (ofiCqReadEntries s.cq count).2 = .avail)
      ∧ (ofiCqReaderr s.cq).2 = some (.error e.slot e.err) := by
  refine ⟨fun count hcount => ?_, ?_⟩
  · obtain ⟨cells', more, ts, hhands, hclear, hret, hsome⟩ := h.holds.readEntries count
    have hhead := hhands.waiting
    rw [hwaiting] at hhead
    obtain hret | ⟨-, hnil, -⟩ | ⟨-, hret, -⟩ := hret
    · obtain _ | ⟨t, ts⟩ := ts
      · exact absurd hret (hsome hcount)
      -- a read hands out successes only, and the first waiting completion is none
      obtain ⟨e', more, -, -, rfl⟩ := List.forall₂_cons_right_iff.mp hhands.handed
      rw [(List.cons.inj hhead).1] at herr
      exact absurd (hclear e' List.mem_cons_self) herr
    · rw [hwaiting] at hnil
      cases hnil
    · exact hret
  · obtain ⟨-, hclear⟩ | ⟨cells', e', hhands, hret⟩ := h.holds.readerr
    · exact absurd (hclear e es hwaiting) herr
    · have hhead := hhands.waiting
      rw [hwaiting] at hhead
      rw [(List.cons.inj hhead).1]
      exact hret

/-- A new queue. -/
def init (size : UInt64) (pow2 : ∃ k, size.toNat = 2 ^ k) (hasSrc : Bool) (format : CqFormat) :
    CqHistory := ⟨ofiCqInit size pow2 hasSrc format, [], []⟩

theorem Fifo.init (size : UInt64) (pow2 : ∃ k, size.toNat = 2 ^ k) (hasSrc : Bool)
    (format : CqFormat) : (CqHistory.init size pow2 hasSrc format).Fifo format hasSrc [] [] where
  holds := by
    have hnone : (CqHistory.init size pow2 hasSrc format).cq.cirq.usedcnt.toNat = 0 := by
      show ((0 : UInt64) - 0).toNat = 0
      rw [UInt64.sub_self]
      rfl
    have hbounded : (CqHistory.init size pow2 hasSrc format).cq.cirq.Bounded :=
      hnone.le.trans (Nat.zero_le _)
    refine ⟨hbounded, Cirque.isEmpty_iff.mp rfl, fun x hx => (List.not_mem_nil hx).elim, rfl,
      fun hfull => ?_⟩
    have hused := (Cirque.isFull_iff hbounded).mp hfull
    rw [hnone] at hused
    exact absurd hused (Cirque.size_pos _).ne
  format_eq := rfl
  src_eq := by
    cases hasSrc with
    | true => rfl
    | false => rfl
  accepted := rfl
  handed := .nil

end CqHistory

/-- **Completions come out first in, first out.** After any history of writes and reads of a
completion queue of any size, what the application was handed are the first of the accepted
completions, in order, each once and with its own contents. If others wait, the next call
hands out the first of them: a read if it is a success, while an error holds reads off until
`fi_cq_readerr` takes it. A write is refused only if memory for the auxiliary list is. -/
theorem completions_first_in_first_out (size : UInt64) (pow2 : ∃ k, size.toNat = 2 ^ k)
    (hasSrc : Bool) (format : CqFormat) (ops : List CqOp)
    (hops : Along CqHistory.step CqHistory.Admits (CqHistory.init size pow2 hasSrc format) ops) :
    let s := ops.foldl CqHistory.step (CqHistory.init size pow2 hasSrc format)
    ∃ gone waiting, s.accepted = gone ++ waiting
      ∧ List.Forall₂ (fun e t => CqEntry.HandedAs e format hasSrc t) gone s.taken
      ∧ (∀ e es, waiting = e :: es → e.err = 0 → ∀ count, count ≠ 0 →
          ∃ t ts, (ofiCqReadEntries s.cq count).2 = .entries (t :: ts)
            ∧ e.HandedAs format hasSrc t)
      ∧ (∀ e es, waiting = e :: es → e.err ≠ 0 →
          (∀ count, count ≠ 0 → (ofiCqReadEntries s.cq count).2 = .avail)
            ∧ (ofiCqReaderr s.cq).2 = some (.error e.slot e.err))
      ∧ ∀ alloc e, hasFlag e.flags utilFlagAux = false → (s.cq.write alloc e).2 ≠ .ok →
          alloc = false := by
  intro s
  have hstep : ∀ (s : CqHistory) op, (∃ cells gone, s.Fifo format hasSrc cells gone) →
      s.Admits op → ∃ cells gone, (s.step op).Fifo format hasSrc cells gone := by
    rintro s op ⟨cells, gone, h⟩ hadm
    exact h.step op hadm
  obtain ⟨cells, gone, h⟩ :=
    Along.invariant hstep ⟨[], [], CqHistory.Fifo.init size pow2 hasSrc format⟩ hops
  refine ⟨gone, CqCell.waiting cells, h.accepted, h.handed,
    fun e es hwaiting herr count hcount => h.read_next hwaiting herr hcount,
    fun e es hwaiting herr => h.readerr_next hwaiting herr, fun alloc e hflag hret => ?_⟩
  obtain ⟨hok, -⟩ | ⟨halloc, -, -⟩ := h.holds.write alloc hflag
  · exact absurd hok hret
  · exact halloc

/-- The history of a queue of two slots: two successes and an error come in, so that the last
slot stands for two completions, and the application reads as much as there is. -/
def overflowingHistory : List CqOp :=
  [.write true ⟨1, fiRecv, 10, 0, 0, none, 0⟩, .write true ⟨2, fiRecv, 20, 0, 0, none, 0⟩,
    .write true ⟨3, fiSend, 0, 0, 0, none, 5⟩, .read 4, .read 4]

/-- The successes are out, and the error waits for `fi_cq_readerr`. -/
theorem overflowingHistory_waits :
    let s := overflowingHistory.foldl CqHistory.step
      (CqHistory.init 2 ⟨1, rfl⟩ false .context)
    s.accepted.length = 3 ∧ s.taken.length = 2
      ∧ ∃ gone waiting, s.accepted = gone ++ waiting
        ∧ List.Forall₂ (fun e t => CqEntry.HandedAs e .context false t) gone s.taken := by
  intro s
  obtain ⟨gone, waiting, haccepted, hhanded, -⟩ :=
    completions_first_in_first_out 2 ⟨1, rfl⟩ false .context overflowingHistory
      ⟨⟨by decide, by decide⟩, ⟨by decide, by decide⟩, ⟨by decide, by decide⟩, trivial, trivial,
        trivial⟩
  exact ⟨by decide +kernel, by decide +kernel, gone, waiting, haccepted, hhanded⟩
