import RdsProv.RingMachine
import RdsProv.Matching

/-!
# An endpoint and its address vector

The address vector of the utility layer is a table of entries. An address is inserted at
most once: a second insertion finds it in the hash and counts a use. A removal takes a use
back, and the last one puts the entry on the free list of its pool, from where the next new
address gets its index – the lowest that is free.

What the vector is for is a binding of indices to addresses, one index to an address
(`Av.binding`). Insertions bind an index that is free, removals free one that is bound, and
the endpoint sees the vector through `rds_av_addr` and `ofi_ip_av_get_fi_addr` only, which
are the binding and its inverse. So an endpoint whose vector changes is an endpoint whose
binding changes between its actions (`Addressed`).
-/

/-! ## The vector -/

/-- `struct util_av_entry`. It is live from its allocation to the removal of its last use. -/
structure AvEntry where
  addr : SockAddr
  useCnt : UInt32
  live : Bool
  deriving DecidableEq, Repr

/-- `ofi_av_get_addr`, entry by entry: what an index is bound to. -/
def avBinding (es : List AvEntry) (i : ℕ) : Option SockAddr :=
  es[i]?.bind (fun e => if e.live then some e.addr else none)

/-- `ofi_av_insert_addr`, with the index it gives; `alloc` is whether the pool can grow. -/
def ofiAvInsertAddr (es : List AvEntry) (alloc : Bool) (addr : SockAddr) :
    List AvEntry × Option ℕ :=
  match es.findIdx? (fun e => e.live && e.addr == addr) with
  | some i => (es.modify i (fun e => { e with useCnt := e.useCnt + 1 }), some i)
  | none =>
    match es.findIdx? (fun e => !e.live) with
    | some i => (es.set i ⟨addr, 1, true⟩, some i)
    | none =>
      if alloc then (es ++ [⟨addr, 1, true⟩], some es.length)
      else (es, none)

/-- `ofi_av_remove_addr`. -/
def ofiAvRemoveAddr (es : List AvEntry) (i : ℕ) : List AvEntry × Ret :=
  if avBinding es i = none then (es, .err fiEinval)
  else (es.modify i (fun e => { e with useCnt := e.useCnt - 1, live := e.useCnt - 1 != 0 }), .ok)

theorem avBinding_set {es : List AvEntry} {i : ℕ} (hi : i < es.length) (e : AvEntry) :
    avBinding (es.set i e)
      = Function.update (avBinding es) i (if e.live then some e.addr else none) := by
  funext j
  unfold avBinding
  by_cases hj : j = i
  · rw [hj, Function.update_self, List.getElem?_set_self hi]
    rfl
  · rw [Function.update_of_ne hj, List.getElem?_set_ne (Ne.symm hj)]

/-- Counting a use. -/
theorem avBinding_modify (es : List AvEntry) (i : ℕ) {f : AvEntry → AvEntry}
    (haddr : ∀ e, (f e).addr = e.addr) (hlive : ∀ e, (f e).live = e.live) :
    avBinding (es.modify i f) = avBinding es := by
  funext j
  unfold avBinding
  rw [List.getElem?_modify]
  cases es[j]? with
  | none => rfl
  | some e =>
    show (if (if i = j then f e else e).live then some (if i = j then f e else e).addr else none)
      = _
    split
    · rw [hlive, haddr]
      rfl
    · rfl

theorem avBinding_append (es : List AvEntry) (e : AvEntry) :
    avBinding (es ++ [e])
      = Function.update (avBinding es) es.length (if e.live then some e.addr else none) := by
  funext j
  unfold avBinding
  by_cases hj : j = es.length
  · rw [hj, Function.update_self, List.getElem?_concat_length]
    rfl
  · rw [Function.update_of_ne hj]
    obtain hlt | hlt := Nat.lt_or_gt_of_ne hj
    · rw [List.getElem?_append_left hlt]
    · rw [List.getElem?_eq_none (by rw [List.length_append]; exact hlt),
        List.getElem?_eq_none hlt.le]

theorem avBinding_of_not_live {es : List AvEntry} {i : ℕ}
    (h : es.findIdx? (fun e => !e.live) = some i) : i < es.length ∧ avBinding es i = none := by
  obtain ⟨hlt, hlive, -⟩ := List.findIdx?_eq_some_iff_getElem.mp h
  refine ⟨hlt, ?_⟩
  unfold avBinding
  rw [List.getElem?_eq_getElem hlt, Option.bind_some, if_neg (by simpa using hlive)]

theorem avBinding_ne_of_findIdx? {es : List AvEntry} {addr : SockAddr}
    (h : es.findIdx? (fun e => e.live && e.addr == addr) = none) (i : ℕ) :
    avBinding es i ≠ some addr := by
  unfold avBinding
  intro hsome
  obtain ⟨e, he, hbound⟩ := Option.bind_eq_some_iff.mp hsome
  have hno := List.findIdx?_eq_none_iff.mp h e (List.mem_of_getElem? he)
  split at hbound
  · rename_i hlive
    cases hbound
    simp [hlive] at hno
  · cases hbound

/-- **An insertion binds a free index, or nothing.** -/
theorem ofiAvInsertAddr_cases (es : List AvEntry) (alloc : Bool) (addr : SockAddr) :
    avBinding (ofiAvInsertAddr es alloc addr).1 = avBinding es
      ∨ ∃ i, avBinding es i = none ∧ (∀ j, avBinding es j ≠ some addr)
        ∧ avBinding (ofiAvInsertAddr es alloc addr).1
          = Function.update (avBinding es) i (some addr) := by
  unfold ofiAvInsertAddr
  split
  · exact .inl (avBinding_modify es _ (fun _ => rfl) (fun _ => rfl))
  rename_i hnew
  have hno := avBinding_ne_of_findIdx? hnew
  split
  · rename_i i hfree
    obtain ⟨hlt, hnone⟩ := avBinding_of_not_live hfree
    exact .inr ⟨i, hnone, hno, avBinding_set hlt _⟩
  · split
    · refine .inr ⟨es.length, ?_, hno, avBinding_append es _⟩
      unfold avBinding
      rw [List.getElem?_eq_none le_rfl]
      rfl
    · exact .inl rfl

/-- **A removal frees its index, or nothing.** -/
theorem ofiAvRemoveAddr_cases (es : List AvEntry) (i : ℕ) :
    avBinding (ofiAvRemoveAddr es i).1 = avBinding es
      ∨ avBinding (ofiAvRemoveAddr es i).1 = Function.update (avBinding es) i none := by
  unfold ofiAvRemoveAddr
  split
  · exact .inl rfl
  rename_i hbound
  cases he : es[i]? with
  | none =>
    refine absurd ?_ hbound
    unfold avBinding
    rw [he]
    rfl
  | some e =>
    obtain ⟨hlt, hget⟩ := List.getElem?_eq_some_iff.mp he
    have hlive : e.live = true := by
      unfold avBinding at hbound
      rw [he, Option.bind_some] at hbound
      by_contra hno
      exact hbound (if_neg hno)
    dsimp only
    rw [List.modify_eq_set_getElem?, he, Option.map_eq_map, Option.map_some, Option.getD_some,
      avBinding_set hlt]
    by_cases hlast : e.useCnt - 1 = 0
    · right
      rw [hlast]
      rfl
    · left
      have hsame : avBinding es i = some e.addr := by
        unfold avBinding
        rw [he, Option.bind_some, if_pos hlive]
      have hstill : (e.useCnt - 1 != 0) = true := by simpa using hlast
      dsimp only
      rw [hstill, if_pos rfl, ← hsame, Function.update_eq_self]

theorem length_ofiAvInsertAddr (es : List AvEntry) (alloc : Bool) (addr : SockAddr) :
    (ofiAvInsertAddr es alloc addr).1.length
      ≤ es.length + (if alloc then 1 else 0) := by
  unfold ofiAvInsertAddr
  split
  · rw [List.length_modify]
    exact Nat.le_add_right _ _
  split
  · rw [List.length_set]
    exact Nat.le_add_right _ _
  split
  · rw [List.length_append]
    rfl
  · exact Nat.le_add_right _ _

theorem length_ofiAvRemoveAddr (es : List AvEntry) (i : ℕ) :
    (ofiAvRemoveAddr es i).1.length = es.length := by
  unfold ofiAvRemoveAddr
  split
  · rfl
  · exact List.length_modify _ _ _

/-- **An address vector**: no address is bound twice, and an index is an `fi_addr_t` other
than `FI_ADDR_NOTAVAIL`. -/
structure Av where
  entries : List AvEntry
  unique : ∀ i j addr, avBinding entries i = some addr → avBinding entries j = some addr → i = j
  small : entries.length < 2 ^ 64

namespace Av

/-- What the indices are bound to. -/
def binding (av : Av) : ℕ → Option SockAddr := avBinding av.entries

/-- A vector as it is opened. -/
def empty : Av := ⟨[], nofun, by decide⟩

/-- Insert an address; no pool grows beyond what an index can say. -/
def insert (av : Av) (alloc : Bool) (addr : SockAddr) : Av where
  entries := (ofiAvInsertAddr av.entries (alloc && av.entries.length + 1 < 2 ^ 64) addr).1
  unique := by
    intro i j addr' hi hj
    obtain h | ⟨n, -, hno, h⟩ := ofiAvInsertAddr_cases av.entries
      (alloc && av.entries.length + 1 < 2 ^ 64) addr
    · rw [h] at hi hj
      exact av.unique i j addr' hi hj
    rw [h, Function.update_apply] at hi hj
    split at hi
    · rename_i hin
      cases hi
      split at hj
      · rename_i hjn
        rw [hin, hjn]
      · exact absurd hj (hno j)
    · split at hj
      · cases hj
        exact absurd hi (hno i)
      · exact av.unique i j addr' hi hj
  small := by
    have hlen := length_ofiAvInsertAddr av.entries (alloc && av.entries.length + 1 < 2 ^ 64) addr
    have hsmall := av.small
    split at hlen
    · rename_i hgrow
      simp only [Bool.and_eq_true, decide_eq_true_eq] at hgrow
      exact hlen.trans_lt hgrow.2
    · exact hlen.trans_lt hsmall

/-- Remove an index. -/
def remove (av : Av) (i : ℕ) : Av where
  entries := (ofiAvRemoveAddr av.entries i).1
  unique := by
    intro j k addr hj hk
    obtain h | h := ofiAvRemoveAddr_cases av.entries i
    · rw [h] at hj hk
      exact av.unique j k addr hj hk
    rw [h, Function.update_apply] at hj hk
    split at hj
    · cases hj
    split at hk
    · cases hk
    · exact av.unique j k addr hj hk
  small := by
    rw [length_ofiAvRemoveAddr]
    exact av.small

variable (av : Av)

theorem binding_insert (alloc : Bool) (addr : SockAddr) :
    (av.insert alloc addr).binding = av.binding
      ∨ ∃ i, av.binding i = none ∧ (∀ j, av.binding j ≠ some addr)
        ∧ (av.insert alloc addr).binding = Function.update av.binding i (some addr) :=
  ofiAvInsertAddr_cases av.entries _ addr

theorem binding_remove (i : ℕ) :
    (av.remove i).binding = av.binding
      ∨ (av.remove i).binding = Function.update av.binding i none :=
  ofiAvRemoveAddr_cases av.entries i

variable {av}

/-- An index that is bound is an entry's. -/
theorem lt_of_binding {i : ℕ} {addr : SockAddr} (h : av.binding i = some addr) :
    i < av.entries.length := by
  obtain ⟨e, he, -⟩ := Option.bind_eq_some_iff.mp h
  exact (List.getElem?_eq_some_iff.mp he).1

/-- An index that is bound is an `fi_addr_t`. -/
theorem toNat_of_binding {i : ℕ} {addr : SockAddr} (h : av.binding i = some addr) :
    (UInt64.ofNat i).toNat = i := by
  rw [UInt64.toNat_ofNat', Nat.mod_eq_of_lt ((lt_of_binding h).trans av.small)]

/-- `FI_ADDR_NOTAVAIL` is never bound. -/
theorem ne_notavail_of_binding {a : UInt64} {addr : SockAddr}
    (h : av.binding a.toNat = some addr) : a ≠ fiAddrNotavail := by
  rintro rfl
  have hlt := lt_of_binding h
  have hsmall := av.small
  have hlast : fiAddrNotavail.toNat = 2 ^ 64 - 1 := by decide
  omega

end Av

/-! ## What an endpoint sees of it -/

/-- The configuration of an endpoint with the vector as it is. -/
def EpCfg.withAv (cfg : EpCfg) (av : Av) : EpCfg :=
  { cfg with
    av := av.entries.map (·.addr)
    avFree := (av.entries.zipIdx.filter (fun e => !e.1.live)).map (·.2) }

section Lookup

variable (cfg : EpCfg) {av : Av}

theorem mem_avFree_withAv {i : ℕ} : i ∈ (cfg.withAv av).avFree
    ↔ ∃ e, av.entries[i]? = some e ∧ e.live = false := by
  show i ∈ (av.entries.zipIdx.filter _).map _ ↔ _
  rw [List.mem_map]
  constructor
  · rintro ⟨⟨e, j⟩, hmem, rfl⟩
    obtain ⟨hmem, hlive⟩ := List.mem_filter.mp hmem
    exact ⟨e, List.mem_zipIdx_iff_getElem?.mp hmem, by simpa using hlive⟩
  · rintro ⟨e, he, hlive⟩
    refine ⟨(e, i), List.mem_filter.mpr ⟨List.mem_zipIdx_iff_getElem?.mpr he, ?_⟩, rfl⟩
    rw [hlive]
    rfl

/-- **`rds_av_addr` is the binding.** -/
theorem rdsAvAddr_withAv (a : UInt64) : rdsAvAddr (cfg.withAv av) a = av.binding a.toNat := by
  unfold rdsAvAddr Av.binding avBinding
  have hget : (cfg.withAv av).av[a.toNat]? = av.entries[a.toNat]?.map (·.addr) :=
    List.getElem?_map
  rw [hget]
  cases he : av.entries[a.toNat]? with
  | none => exact ite_self none
  | some e =>
    rw [Option.bind_some, Option.map_some]
    cases hlive : e.live with
    | false => exact if_pos ((mem_avFree_withAv cfg).mpr ⟨e, he, hlive⟩)
    | true =>
      refine if_neg (fun hmem => ?_)
      obtain ⟨e', he', hdead⟩ := (mem_avFree_withAv cfg).mp hmem
      cases he.symm.trans he'
      rw [hlive] at hdead
      cases hdead

/-- **`ofi_ip_av_get_fi_addr` is its inverse.** -/
theorem ofiIpAvGetFiAddr_withAv (src : SockAddr) :
    (ofiIpAvGetFiAddr (cfg.withAv av) src = fiAddrNotavail ∧ ∀ i, av.binding i ≠ some src)
      ∨ av.binding (ofiIpAvGetFiAddr (cfg.withAv av) src).toNat = some src := by
  have hentry (i : ℕ) : (src, i) ∈ (cfg.withAv av).av.zipIdx ∧ i ∉ (cfg.withAv av).avFree
      ↔ av.binding i = some src := by
    rw [List.mem_zipIdx_iff_getElem?, mem_avFree_withAv]
    show (av.entries.map (·.addr))[i]? = some src ∧ _ ↔ avBinding av.entries i = some src
    unfold avBinding
    rw [List.getElem?_map]
    cases av.entries[i]? with
    | none => simp
    | some e => cases hlive : e.live <;> simp [hlive]
  unfold ofiIpAvGetFiAddr
  split
  · rename_i hnone
    refine .inl ⟨rfl, fun i hi => ?_⟩
    obtain ⟨hmem, hfree⟩ := (hentry i).mpr hi
    have hno := List.find?_eq_none.mp hnone (src, i) hmem
    simp [hfree] at hno
  · rename_i e he
    right
    have hsome := List.find?_some he
    simp only [Bool.and_eq_true, beq_iff_eq, decide_eq_true_eq] at hsome
    have hbound : av.binding e.2 = some src := by
      refine (hentry e.2).mp ⟨?_, hsome.2⟩
      rw [← hsome.1]
      exact List.mem_of_find?_eq_some he
    rw [Av.toNat_of_binding hbound]
    exact hbound

/-- The index an address is bound to is the one its messages are matched under. -/
theorem ofiIpAvGetFiAddr_of_binding {a : UInt64} {src : SockAddr}
    (h : av.binding a.toNat = some src) : ofiIpAvGetFiAddr (cfg.withAv av) src = a := by
  obtain ⟨-, hno⟩ | hbound := ofiIpAvGetFiAddr_withAv cfg src
  · exact absurd h (hno _)
  · exact UInt64.toNat_inj.mp (av.unique _ _ _ hbound h)

end Lookup

/-! ## The records of an endpoint -/

/-- **Every record in a given state is of the address its index is bound to.** -/
def RingBook.Agrees (live : PeerState → Prop) (cfg : EpCfg) (b : RingBook) : Prop :=
  ∀ a p, b.table a = some p → live p.state → rdsAvAddr cfg a = some p.sa

namespace RingBook

variable {live : PeerState → Prop} {cfg : EpCfg} {inp : RingInput} {b b' : RingBook}

theorem Agrees.put (hb : b.Agrees live cfg) {q : Peer}
    (hq : live q.state → rdsAvAddr cfg q.addr = some q.sa) : (b.put q).Agrees live cfg := by
  intro a p hp
  by_cases ha : a = q.addr
  · rw [ha, table_put_self] at hp
    cases hp
    rw [ha]
    exact hq
  · rw [table_put_of_ne b ha] at hp
    exact hb a p hp

/-- A record is put back. -/
theorem Agrees.put_back (hb : b.Agrees live cfg) {p q : Peer} (hp : b.table p.addr = some p)
    (haddr : q.addr = p.addr) (hsa : q.sa = p.sa) (hlive : live q.state → live p.state) :
    (b.put q).Agrees live cfg := by
  refine hb.put (fun hq => ?_)
  rw [haddr, hsa]
  exact hb p.addr p hp (hlive hq)

/-- **The rules keep the records in agreement** with the vector as it is; a record that is
disabled stays disabled. -/
theorem Rule.agrees (hlive : ∀ s, s ≠ .disabled → live s) (h : Rule cfg inp b b')
    (hb : b.Agrees live cfg) : b'.Agrees live cfg := by
  cases h with
  | quiet h =>
    cases h with
    | create _ hsa hq =>
      refine hb.put (fun _ => ?_)
      obtain ⟨ring, credit, rfl⟩ | rfl := hq
      · exact hsa
      · exact hsa
    | kick hp hstate | expire hp hstate | stage hp hstate =>
      exact hb.put_back hp rfl rfl (fun _ => hlive _ (by rw [hstate]; decide))
    | refuse hp _ hstate | adopt hp _ hstate =>
      exact hb.put_back hp rfl rfl (fun _ => hlive _ hstate)
    | @refresh p hp hstate =>
      exact hb.put_back hp (Peer.Steady.refreshCredit p).addr (Peer.Steady.refreshCredit p).sa
        (fun _ => hlive _ (by rw [hstate]; decide))
  | place hp hstate => exact hb.put_back hp rfl rfl (fun _ => hlive _ (by rw [hstate]; decide))
  | @absorb p slot hp =>
    refine hb.put_back hp (Peer.Steady.absorbAck p slot.ack).addr
      (Peer.Steady.absorbAck p slot.ack).sa (fun hq => ?_)
    unfold Peer.absorbAck at hq
    split at hq
    · exact hq
    · exact hq
  | consume hp | withhold hp | credit hp | land hp | landCredit hp =>
    exact hb.put_back hp rfl rfl id

theorem Rules.agrees (hlive : ∀ s, s ≠ .disabled → live s) (h : Rules cfg inp b b')
    (hb : b.Agrees live cfg) : b'.Agrees live cfg := by
  induction h with
  | refl => exact hb
  | tail _ hstep ih => exact hstep.agrees hlive ih

end RingBook

/-! ## The machine -/

/-- An endpoint, the address vector it is bound to, and how many messages had arrived when
each index was bound. -/
structure Addressed where
  av : Av
  ep : Ep
  boundAt : ℕ → ℕ

/-- What can happen: addresses come and go, and the endpoint acts. -/
inductive AvAct where
  | insert (alloc : Bool) (addr : SockAddr)
  | remove (fiAddr : UInt64)
  | ep (a : EpAct)

namespace Addressed

variable {cfg : EpCfg} {domain : Domain}

/-- The vector changes. -/
def setAv (v : Addressed) (av : Av) : Addressed where
  av := av
  ep := { v.ep with cfg := v.ep.cfg.withAv av }
  boundAt i := if v.av.binding i = none ∧ av.binding i ≠ none then v.ep.arrivals else v.boundAt i

/-- One step. -/
def act (v : Addressed) : AvAct → Addressed
  | .insert alloc addr => v.setAv (v.av.insert alloc addr)
  | .remove fiAddr => v.setAv (v.av.remove fiAddr.toNat)
  | .ep a => { v with ep := v.ep.act a }

/-- An endpoint with an empty vector. -/
def init (cfg : EpCfg) (domain : Domain) : Addressed :=
  ⟨.empty, Ep.init (cfg.withAv .empty) domain, fun _ => 0⟩

/-- The state a history leads to. -/
def after (cfg : EpCfg) (domain : Domain) (acts : List AvAct) : Addressed :=
  acts.foldl act (init cfg domain)

/-- What is possible is what is possible at the endpoint. -/
def Admits (v : Addressed) : AvAct → Prop
  | .insert .. | .remove _ => True
  | .ep a => v.ep.Admits a

/-- **The endpoint sees the vector as it is.** -/
def Sees (cfg : EpCfg) (v : Addressed) : Prop := v.ep.cfg = cfg.withAv v.av

theorem Sees.step {v : Addressed} (h : v.Sees cfg) (a : AvAct) : (v.act a).Sees cfg := by
  cases a with
  | insert alloc addr =>
    show v.ep.cfg.withAv _ = _
    rw [h]
    rfl
  | remove fiAddr =>
    show v.ep.cfg.withAv _ = _
    rw [h]
    rfl
  | ep a => exact (Ep.MatchStep.act v.ep a).cfg.trans h

theorem Sees.after (cfg : EpCfg) (domain : Domain) (acts : List AvAct) :
    (after cfg domain acts).Sees cfg := by
  refine List.foldlRecOn acts act ?_ (fun v h a _ => h.step a)
  rfl

/-- **Every record in a given state is of the address its index is bound to.** -/
def Agrees (live : PeerState → Prop) (v : Addressed) : Prop :=
  ∀ a p, rdsPeerFind v.ep a = some p → live p.state → v.av.binding a.toNat = some p.sa

theorem Sees.rdsAvAddr {v : Addressed} (h : v.Sees cfg) (a : UInt64) :
    rdsAvAddr v.ep.cfg a = v.av.binding a.toNat := by
  rw [h, rdsAvAddr_withAv]

theorem Agrees.ringBook {live : PeerState → Prop} {v : Addressed} (hsees : v.Sees cfg)
    (h : v.Agrees live) : v.ep.ringBook.Agrees live v.ep.cfg := by
  intro a p hp hstate
  rw [hsees.rdsAvAddr]
  exact h a p hp hstate

/-- The endpoint keeps its records in agreement, as long as the vector stays as it is. -/
theorem Agrees.act {live : PeerState → Prop} (hlive : ∀ s, s ≠ .disabled → live s) {v : Addressed}
    (hsees : v.Sees cfg) (h : v.Agrees live) (a : EpAct) : (v.act (.ep a)).Agrees live := by
  intro a' p hp hstate
  have hb := (v.ep.act_ring a).2.agrees hlive (h.ringBook hsees) a' p hp hstate
  rw [hsees.rdsAvAddr] at hb
  exact hb

/-- An insertion keeps what is bound. -/
theorem binding_insert_of_some {v : Addressed} {i : ℕ} {sa : SockAddr}
    (h : v.av.binding i = some sa) (alloc : Bool) (addr : SockAddr) :
    (v.act (.insert alloc addr)).av.binding i = some sa := by
  obtain hsame | ⟨n, hfree, -, hbind⟩ := v.av.binding_insert alloc addr
  · exact (congrFun hsame i).trans h
  · refine (congrFun hbind i).trans ?_
    rw [Function.update_of_ne]
    · exact h
    · rintro rfl
      rw [hfree] at h
      cases h

end Addressed
