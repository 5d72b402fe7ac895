import RdsProv.RingRefine
import RdsProv.Lib.ChainTable

/-!
# The peer table

An endpoint keeps its peers three times: in the hash chains of `peer_hash`, where
`rds_peer_find` looks, on the list `peer_lru`, which `rds_ring_progress` walks, and in the
count `peer_cnt`, which `rds_peer_create` holds against `ring_max_peers`. This module is
about the three together. Elsewhere in the development a table is the list of its records,
most recently used first; `rdsRingSend_table`, `rdsRingHandleCtrl_table` and
`rdsRingProgress_table` say that this is no loss.

What a call does to the table depends on things outside it: whether the message is one for
the ring, whether the address is known, whether memory is had and registered, what is then
written into the record. All of this is left open here and comes with the call, as a
`PeerCall`; so does what happens while a list is walked. What a call may not do is change
the address of a record, since nothing assigns it once `rds_peer_create` has.
-/

/-! ## The table -/

/-- `RDS_PEER_HASH_SIZE`. -/
abbrev rdsPeerHashSize : UInt32 := 1024

/-- `rds_peer_hash`. -/
def rdsPeerHash (addr : UInt64) : UInt32 :=
  (addr * 2654435761).toUInt32 &&& (rdsPeerHashSize - 1)

/-- `peer_hash` and `peer_lru`, with the records that hang in them, and `peer_cnt`. -/
structure PeerTable extends ChainTable Peer UInt32 where
  cnt : UInt32

namespace PeerTable

/-- `rds_ep_ring_init`. -/
def init : PeerTable := ⟨ChainTable.empty (Peer.blank 0 0), 0⟩

/-- `rds_peer_find`. -/
def peerFind (t : PeerTable) (addr : UInt64) : Option ℕ := t.find Peer.addr rdsPeerHash addr

/-- `rds_peer_create`. The record is what was allocated and registered, if the address is
known and there was memory for it. -/
def peerCreate (max : UInt32) (t : PeerTable) (addr : UInt64) (made : Option Peer) :
    PeerTable × Option ℕ :=
  if max ≤ t.cnt then (t, none)
  else match made with
    | none => (t, none)
    | some p =>
      (⟨t.insert Peer.addr rdsPeerHash { p with addr := addr }, t.cnt + 1⟩, some t.made)

/-- Find a peer, or create it. -/
def peerGet (max : UInt32) (t : PeerTable) (addr : UInt64) (made : Option Peer) :
    PeerTable × Option ℕ :=
  match t.peerFind addr with
  | some i => (t, some i)
  | none => t.peerCreate max addr made

/-- Write into a record. -/
def write (t : PeerTable) (i : ℕ) (upd : Peer → Peer) : PeerTable :=
  ⟨t.store i { upd (t.mem i) with addr := (t.mem i).addr }, t.cnt⟩

end PeerTable

/-- What happens to a table, with all that decides about it. -/
inductive PeerCall where
  /-- `rds_ring_send`, for a message that the ring is for or not. -/
  | send (applies : Bool) (dest : UInt64) (made : Option Peer) (upd : Peer → Peer)
  /-- `rds_ring_handle_ctrl`, for a message that is looked at or not. -/
  | ctrl (applies : Bool) (src : UInt64) (made : Option Peer) (upd : Peer → Peer)
  /-- Something is written into a record: by a poll, or by the peer into its ring. -/
  | write (i : ℕ) (upd : Peer → Peer)

namespace PeerCall

/-- Whether a call is a send. -/
def isSend : PeerCall → Bool
  | .send .. => true
  | .ctrl .. | .write .. => false

/-- What a call does. -/
def run (max : UInt32) (t : PeerTable) : PeerCall → PeerTable
  | .send applies dest made upd =>
    if !applies then t
    else match t.peerGet max dest made with
      | (t, none) => t
      | (t, some i) => PeerTable.write ⟨t.touch i, t.cnt⟩ i upd
  | .ctrl applies src made upd =>
    if !applies then t
    else match t.peerGet max src made with
      | (t, none) => t
      | (t, some i) => t.write i upd
  | .write i upd => if i < t.made then t.write i upd else t

end PeerCall

namespace PeerTable

/-- The table after some calls. -/
def after (max : UInt32) (calls : List PeerCall) : PeerTable :=
  calls.foldl (PeerCall.run max) init

/-- `rds_ring_progress`: the walk along `peer_lru`, with the calls made while each peer is
visited. The result is the table at the end and the peers visited. -/
def ringProgress (max : UInt32) (visits : ℕ → List PeerCall) (steps : ℕ) (t : PeerTable) :
    PeerTable × List ℕ :=
  if t.cnt = 0 then (t, [])
  else walkList (fun t => t.lru) (fun t i => (visits i).foldl (PeerCall.run max) t) steps
    t.lru.head? t

/-! ## The three structures agree -/

/-- **The table is sound**: chains and list agree, the count counts and is capped. -/
structure Sound (max : UInt32) (t : PeerTable) : Prop
    extends t.toChainTable.Sound Peer.addr rdsPeerHash where
  cnt : t.cnt.toNat = t.made
  capped : t.cnt ≤ max

variable {max : UInt32} {t : PeerTable}

theorem Sound.init (max : UInt32) : init.Sound max :=
  ⟨.empty _, rfl, UInt32.zero_le⟩

theorem Sound.write (h : t.Sound max) (i : ℕ) (upd : Peer → Peer) : (t.write i upd).Sound max :=
  ⟨h.toSound.store rfl, h.cnt, h.capped⟩

theorem Sound.touch (h : t.Sound max) {i : ℕ} (hi : i < t.made) :
    Sound max ⟨t.touch i, t.cnt⟩ :=
  ⟨h.toSound.touch hi, h.cnt, h.capped⟩

/-- **Records stay**, under the address they were made for. -/
structure Grows (t t' : PeerTable) : Prop where
  made : t.made ≤ t'.made
  addr : ∀ i < t.made, (t'.mem i).addr = (t.mem i).addr

namespace Grows

variable {t' t'' : PeerTable}

theorem refl (t : PeerTable) : t.Grows t := ⟨le_rfl, fun _ _ => rfl⟩

theorem trans (h : t.Grows t') (h' : t'.Grows t'') : t.Grows t'' :=
  ⟨h.made.trans h'.made, fun i hi => (h'.addr i (hi.trans_le h.made)).trans (h.addr i hi)⟩

theorem write (t : PeerTable) (i : ℕ) (upd : Peer → Peer) : t.Grows (t.write i upd) := by
  refine ⟨le_rfl, fun j _ => ?_⟩
  show (Function.update t.mem i _ j).addr = (t.mem j).addr
  by_cases hj : j = i
  · rw [hj, Function.update_self]
  · rw [Function.update_of_ne hj]

theorem touch (t : PeerTable) (i : ℕ) : t.Grows ⟨t.touch i, t.cnt⟩ := ⟨le_rfl, fun _ _ => rfl⟩

end Grows

/-- **Finding or creating a peer** keeps the table sound and its records where they are. A
record is created only below the cap, and only if there is none for the address. -/
theorem Sound.peerGet (h : t.Sound max) {addr : UInt64} {made : Option Peer} {t' : PeerTable}
    {found : Option ℕ} (hget : t.peerGet max addr made = (t', found)) :
    t'.Sound max ∧ t.Grows t' ∧ (∃ new, t'.lru = new ++ t.lru)
      ∧ ∀ i ∈ found, i < t'.made ∧ (t'.mem i).addr = addr := by
  unfold PeerTable.peerGet at hget
  cases hfind : t.peerFind addr with
  | some i =>
    rw [hfind] at hget
    cases hget
    refine ⟨h, .refl t, ⟨[], rfl⟩, fun j hj => ?_⟩
    cases hj
    exact h.toSound.find_eq_some.mp hfind
  | none =>
    rw [hfind] at hget
    dsimp only at hget
    unfold peerCreate at hget
    split at hget
    · cases hget
      exact ⟨h, .refl t, ⟨[], rfl⟩, fun j hj => by cases hj⟩
    rename_i hroom
    cases made with
    | none =>
      cases hget
      exact ⟨h, .refl t, ⟨[], rfl⟩, fun j hj => by cases hj⟩
    | some p =>
      cases hget
      have hcnt : (t.cnt + 1).toNat = t.made + 1 := by
        have hlt := UInt32.lt_iff_toNat_lt.mp (UInt32.not_le.mp hroom)
        have hmax := max.toNat_lt
        rw [UInt32.toNat_add, ← h.cnt]
        exact Nat.mod_eq_of_lt (by show t.cnt.toNat + 1 < 2 ^ 32; omega)
      refine ⟨⟨h.toSound.insert hfind, hcnt, ?_⟩, ⟨Nat.le_succ _, fun i hi => ?_⟩, ⟨[t.made], rfl⟩,
        fun j hj => ?_⟩
      · rw [UInt32.le_iff_toNat_le, hcnt, ← h.cnt]
        exact UInt32.lt_iff_toNat_lt.mp (UInt32.not_le.mp hroom)
      · exact congrArg Peer.addr (Function.update_of_ne hi.ne _ _)
      · cases hj
        refine ⟨Nat.lt_succ_self _, ?_⟩
        show (Function.update t.mem t.made _ t.made).addr = addr
        rw [Function.update_self]

/-- **One call** keeps the table sound and its records where they are. -/
theorem Sound.run (h : t.Sound max) (c : PeerCall) :
    (c.run max t).Sound max ∧ t.Grows (c.run max t) := by
  cases c with
  | send applies dest made upd =>
    rw [PeerCall.run]
    split
    · exact ⟨h, .refl t⟩
    rcases hget : t.peerGet max dest made with ⟨t', _ | i⟩
    · obtain ⟨hsound, hgrows, -, -⟩ := h.peerGet hget
      exact ⟨hsound, hgrows⟩
    · obtain ⟨hsound, hgrows, -, hi⟩ := h.peerGet hget
      exact ⟨(hsound.touch (hi i rfl).1).write i upd,
        hgrows.trans ((Grows.touch t' i).trans (.write ⟨t'.touch i, t'.cnt⟩ i upd))⟩
  | ctrl applies src made upd =>
    rw [PeerCall.run]
    split
    · exact ⟨h, .refl t⟩
    rcases hget : t.peerGet max src made with ⟨t', _ | i⟩
    · obtain ⟨hsound, hgrows, -, -⟩ := h.peerGet hget
      exact ⟨hsound, hgrows⟩
    · obtain ⟨hsound, hgrows, -, -⟩ := h.peerGet hget
      exact ⟨hsound.write i upd, hgrows.trans (.write t' i upd)⟩
  | write i upd =>
    rw [PeerCall.run]
    split
    · exact ⟨h.write i upd, .write t i upd⟩
    · exact ⟨h, .refl t⟩

/-- What is not a send links only at the head of the list. -/
theorem Sound.lru_run (h : t.Sound max) {c : PeerCall} (hc : c.isSend = false) :
    ∃ new, (c.run max t).lru = new ++ t.lru := by
  cases c with
  | send => cases hc
  | ctrl applies src made upd =>
    rw [PeerCall.run]
    split
    · exact ⟨[], rfl⟩
    rcases hget : t.peerGet max src made with ⟨t', _ | i⟩
    · exact (h.peerGet hget).2.2.1
    · exact (h.peerGet hget).2.2.1
  | write i upd =>
    rw [PeerCall.run]
    split <;> exact ⟨[], rfl⟩

/-- **Any number of calls.** -/
theorem Sound.runs (h : t.Sound max) (calls : List PeerCall) :
    (calls.foldl (PeerCall.run max) t).Sound max
      ∧ t.Grows (calls.foldl (PeerCall.run max) t) := by
  induction calls generalizing t with
  | nil => exact ⟨h, .refl t⟩
  | cons c calls ih =>
    obtain ⟨hsound, hgrows⟩ := h.run c
    obtain ⟨hsound', hgrows'⟩ := ih hsound
    exact ⟨hsound', hgrows.trans hgrows'⟩

theorem Sound.lru_runs (h : t.Sound max) {calls : List PeerCall}
    (hcalls : ∀ c ∈ calls, c.isSend = false) :
    ∃ new, (calls.foldl (PeerCall.run max) t).lru = new ++ t.lru := by
  induction calls generalizing t with
  | nil => exact ⟨[], rfl⟩
  | cons c calls ih =>
    obtain ⟨hc, hcalls⟩ := List.forall_mem_cons.mp hcalls
    obtain ⟨new, hnew⟩ := h.lru_run hc
    obtain ⟨new', hnew'⟩ := ih (h.run c).1 hcalls
    exact ⟨new' ++ new, by rw [List.foldl_cons, hnew', hnew, List.append_assoc]⟩

/-- **A pass is a fold over the list it began with**, for any number of steps that the list
fits in. -/
theorem Sound.ringProgress (h : t.Sound max) {visits : ℕ → List PeerCall}
    (hvisits : ∀ i, ∀ c ∈ visits i, c.isSend = false) {steps : ℕ} (hsteps : t.lru.length ≤ steps) :
    t.ringProgress max visits steps
      = (t.lru.foldl (fun t i => (visits i).foldl (PeerCall.run max) t) t, t.lru) := by
  unfold PeerTable.ringProgress
  split
  · rename_i hcnt
    have hnil : t.lru = [] := by
      have hlen := h.lru.length_eq
      rw [List.length_range, ← h.cnt, hcnt] at hlen
      exact List.eq_nil_of_length_eq_zero hlen
    rw [hnil]
    rfl
  · have hnodup : ∀ t : PeerTable, t.Sound max → t.lru.Nodup := fun t h => h.nodup
    exact walkList_eq_foldl hnodup
      (fun t i h => ⟨(h.runs (visits i)).1, h.lru_runs (hvisits i)⟩) h (List.nil_append _).symm
      hsteps

/-- **The peer table is a table.** After any calls, with any addresses and whatever became of
allocations and registrations:

* there is one record at most for an address;
* a record is on the chain of its address and on no other, once, and once on the list;
* nothing else is on either, the count is the number of records, and it is capped;
* a record is found under its address from then on;
* a pass visits the records that were there when it began, each once, whatever is created
  meanwhile. -/
theorem peer_table_represents (max : UInt32) (calls : List PeerCall) :
    let t := after max calls
    (∀ i < t.made, ∀ j < t.made, (t.mem i).addr = (t.mem j).addr → i = j)
      ∧ (∀ i < t.made, (∀ b, (t.chain b).count i = if b = rdsPeerHash (t.mem i).addr then 1 else 0)
        ∧ t.lru.count i = 1)
      ∧ (∀ i, (i ∈ t.lru → i < t.made) ∧ ∀ b, i ∈ t.chain b → i < t.made)
      ∧ t.cnt.toNat = t.made ∧ t.cnt ≤ max
      ∧ (∀ more, ∀ i < t.made, (after max (calls ++ more)).peerFind (t.mem i).addr = some i)
      ∧ ∀ visits steps, (∀ i, ∀ c ∈ visits i, c.isSend = false) → t.lru.length ≤ steps →
        (t.ringProgress max visits steps).2 = t.lru := by
  intro t
  have h : t.Sound max := ((Sound.init max).runs calls).1
  refine ⟨h.keys, fun i hi => ⟨h.count_chain hi, h.count_lru hi⟩,
    fun i => ⟨h.mem_lru.mp, fun b hb => (h.mem_chain.mp hb).1⟩, h.cnt, h.capped,
    fun more i hi => ?_, fun visits steps hvisits hsteps => ?_⟩
  · obtain ⟨hsound, hgrows⟩ := h.runs more
    unfold after
    rw [List.foldl_append]
    exact hsound.find_eq_some.mpr ⟨hi.trans_le hgrows.made, hgrows.addr i hi⟩
  · rw [h.ringProgress hvisits hsteps]

end PeerTable

/-! ## The table as a list

Where an endpoint has the list of its peers, a table with the same records serves as well:
whatever a function of the list model does to the list, the calls it stands for do to the
table. -/

/-- **A table holds the peers of an endpoint.** -/
structure PeerTable.Holds (max : UInt32) (t : PeerTable) (ep : Ep) : Prop where
  sound : t.Sound max
  records : t.records = ep.peers
  max : max.toNat = ep.cfg.ringMaxPeers

namespace PeerTable.Holds

variable {max : UInt32} {t : PeerTable} {ep e : Ep}

/-- Only the peers matter. -/
theorem congr (h : t.Holds max ep) (hpeers : e.peers = ep.peers) (hcfg : e.cfg = ep.cfg) :
    t.Holds max e :=
  ⟨h.sound, h.records.trans hpeers.symm, by rw [hcfg]; exact h.max⟩

theorem find (h : t.Holds max ep) (addr : UInt64) :
    rdsPeerFind ep addr = (t.peerFind addr).map t.mem := by
  unfold rdsPeerFind
  rw [← h.records]
  exact h.sound.find?_records addr

theorem length (h : t.Holds max ep) : ep.peers.length = t.cnt.toNat := by
  rw [← h.records, ChainTable.records, List.length_map, h.sound.lru.length_eq, List.length_range,
    h.sound.cnt]

/-- A record is written back. -/
theorem setPeer (h : t.Holds max ep) {i : ℕ} (hi : i < t.made) {q : Peer}
    (hq : q.addr = (t.mem i).addr) : (t.write i (fun _ => q)).Holds max (ep.setPeer q) := by
  have hself : ({ q with addr := (t.mem i).addr } : Peer) = q := by rw [← hq]
  refine ⟨h.sound.write i _, ?_, h.max⟩
  show (t.store i { q with addr := (t.mem i).addr }).records = ep.peers.modifyFirst _ _
  rw [hself, h.sound.records_store hi hq, h.records]

/-- A record is moved to the head. -/
theorem touchPeer (h : t.Holds max ep) {i : ℕ} (hi : i < t.made) :
    Holds max ⟨t.touch i, t.cnt⟩ (ep.touchPeer (t.mem i)) := by
  refine ⟨h.sound.touch hi, ?_, h.max⟩
  show (t.touch i).records = t.mem i :: ep.peers.eraseP _
  rw [h.sound.records_touch hi, h.records]

/-- **Finding or creating a peer**, in the list and in the table. -/
theorem peerGet (h : t.Holds max ep) {env : Env} {addr : UInt64} {p? : Option Peer}
    (hep : rdsPeerGet env ep addr = (e, p?)) :
    ∃ made t' found, t.peerGet max addr made = (t', found) ∧ t'.Holds max e
      ∧ p? = found.map t'.mem := by
  suffices hall : ∀ r, rdsPeerGet env ep addr = r → ∃ made t' found,
      t.peerGet max addr made = (t', found) ∧ t'.Holds max r.1 ∧ r.2 = found.map t'.mem from
    hall _ hep
  rintro r rfl
  have hcap : max ≤ t.cnt ↔ ep.cfg.ringMaxPeers ≤ ep.peers.length := by
    rw [UInt32.le_iff_toNat_le, h.max, h.length]
  have hmiss (hnone : rdsPeerFind ep addr = none) : t.peerFind addr = none := by
    rwa [h.find, Option.map_eq_none_iff] at hnone
  have hfail (hnone : rdsPeerFind ep addr = none) : t.peerGet max addr none = (t, none) := by
    rw [PeerTable.peerGet, hmiss hnone]
    show t.peerCreate max addr none = (t, none)
    unfold peerCreate
    split <;> rfl
  refine rdsPeerGet_elim (fun p hp => ?_) (fun hnone _ => ⟨none, t, none, hfail hnone, h, rfl⟩)
    (fun hnone _ _ => ⟨none, t, none, hfail hnone, h.congr rfl rfl, rfl⟩)
    (fun sa e p hnone hroom _ hreg => ?_)
  · rw [h.find, Option.map_eq_some_iff] at hp
    obtain ⟨i, hi, rfl⟩ := hp
    refine ⟨none, t, some i, ?_, h, rfl⟩
    rw [PeerTable.peerGet, hi]
  · obtain ⟨dom, q, hreg', hcreated, -⟩ := rdsPeerRegister_cases env
      { ep with tick := ep.tick + 4 } addr sa (env.heap (ep.tick + 1)) (env.heap (ep.tick + 3))
    obtain ⟨rfl, rfl⟩ := Prod.mk.inj (hreg.symm.trans hreg')
    have hself : ({ p with addr := addr } : Peer) = p := by rw [← hcreated.addr]
    have hget : t.peerGet max addr (some p)
        = (⟨t.insert Peer.addr rdsPeerHash p, t.cnt + 1⟩, some t.made) := by
      rw [PeerTable.peerGet, hmiss hnone]
      dsimp only
      rw [peerCreate, if_neg (mt hcap.mp hroom), hself]
    refine ⟨some p, _, _, hget, ⟨(h.sound.peerGet hget).1, ?_, h.max⟩, ?_⟩
    · show (t.insert Peer.addr rdsPeerHash p).records = p :: ep.peers
      rw [h.sound.records_insert, h.records]
    · show some p = some (Function.update t.mem t.made p t.made)
      rw [Function.update_self]

end PeerTable.Holds

/-- **Only one record was written.** -/
def Ep.Rewrites (p : Peer) (ep ep' : Ep) : Prop :=
  ep'.cfg = ep.cfg ∧ ∃ q : Peer, q.addr = p.addr ∧ ep'.peers = (ep.setPeer q).peers

/-- Writing back a record, after something that left the peers alone. -/
theorem Ep.Rewrites.setPeer {ep e : Ep} {p q : Peer} (hcfg : e.cfg = ep.cfg)
    (hpeers : e.peers = ep.peers) (hq : q.addr = p.addr) : ep.Rewrites p (e.setPeer q) := by
  refine ⟨hcfg, q, hq, ?_⟩
  unfold Ep.setPeer
  rw [hpeers]

theorem Ep.Rewrites.congr {ep e e' : Ep} {p : Peer} (h : ep.Rewrites p e) (hcfg : e'.cfg = e.cfg)
    (hpeers : e'.peers = e.peers) : ep.Rewrites p e' := by
  obtain ⟨hcfg', q, hq, hpeers'⟩ := h
  exact ⟨hcfg.trans hcfg', q, hq, hpeers.trans hpeers'⟩

theorem rdsRingConnect_rewrites (env : Env) (ep : Ep) (p : Peer) :
    ep.Rewrites p (rdsRingConnect env ep p).1 := by
  obtain ⟨hside, hpeers, -, -⟩ := rdsRingSendCtrl_cases env ep p rdsOpRingReq (.inl rfl)
  refine rdsRingConnect_elim (fun e q _ he hq => ?_) (fun e q _ he hq _ => ?_)
    (fun _ => .setPeer rfl rfl rfl) (fun _ _ => .setPeer rfl rfl rfl)
  · rw [he, hq]
    exact .setPeer hside.cfg hpeers rfl
  · rw [he, hq]
    exact .setPeer hside.cfg hpeers rfl

theorem rdsRingPlace_rewrites (env : Env) (ep : Ep) (p : Peer) (payload : List UInt8)
    (tag data : UInt64) (context : ℕ) (flags : UInt64) (tagged genComp : Bool) (op : UInt8) :
    ep.Rewrites p
      (rdsRingPlace env ep p payload tag data context flags tagged genComp op).1 := by
  have haddr := (Peer.Steady.refreshCredit p).addr
  refine rdsRingPlace_elim (fun q hq _ => ?_) (fun q slot _ _ hq _ _ _ _ => ?_)
    (fun q slot hq _ _ => ?_)
  all_goals rw [← hq] at haddr
  · exact .setPeer rfl rfl haddr
  · exact .setPeer rfl rfl haddr
  · exact (Ep.Rewrites.setPeer rfl rfl (q := q.advance slot) haddr).congr rfl rfl

namespace PeerTable.Holds

variable {max : UInt32} {t : PeerTable} {ep e : Ep}

theorem rewrites (h : t.Holds max ep) {i : ℕ} (hi : i < t.made) (he : ep.Rewrites (t.mem i) e) :
    ∃ upd, (t.write i upd).Holds max e := by
  obtain ⟨hcfg, q, hq, hpeers⟩ := he
  exact ⟨fun _ => q, (h.setPeer hi hq).congr hpeers hcfg⟩

/-- Nothing is written. -/
theorem unwritten (h : t.Holds max ep) (i : ℕ) : (t.write i id).Holds max ep := by
  have hself : t.write i id = t := by
    show (⟨{ t.toChainTable with mem := Function.update t.mem i (t.mem i) }, t.cnt⟩ : PeerTable) = t
    rw [Function.update_eq_self]
  rw [hself]
  exact h

/-- **A send, in the list and in the table.** -/
theorem rdsRingSend_table (h : t.Holds max ep) (env : Env) (payload : List UInt8)
    (dest tag data : UInt64) (context : ℕ) (flags : UInt64) (tagged genComp : Bool) (op : UInt8) :
    ∃ applies made upd, (PeerCall.run max t (.send applies dest made upd)).Holds max
      (rdsRingSend env ep payload dest tag data context flags tagged genComp op).1 := by
  -- the peer is found or created, and moved to the head
  have htouch {e : Ep} {p : Peer} (hep : rdsPeerGet env ep dest = (e, some p))
      {e' : Ep} (he' : (e.touchPeer p).Rewrites p e' ∨ e' = e.touchPeer p) :
      ∃ applies made upd, (PeerCall.run max t (.send applies dest made upd)).Holds max e' := by
    obtain ⟨made, t', found, hget, hholds, hfound⟩ := h.peerGet hep
    obtain ⟨i, rfl, rfl⟩ := Option.map_eq_some_iff.mp hfound.symm
    have hi : i < t'.made := ((h.sound.peerGet hget).2.2.2 i rfl).1
    have htouched := hholds.touchPeer hi
    have hrun (upd : Peer → Peer) : PeerCall.run max t (.send true dest made upd)
        = PeerTable.write ⟨t'.touch i, t'.cnt⟩ i upd := by
      rw [PeerCall.run, hget]
      rfl
    refine ⟨true, made, ?_⟩
    simp only [hrun]
    obtain he' | rfl := he'
    · exact htouched.rewrites hi he'
    · exact ⟨id, htouched.unwritten i⟩
  refine rdsRingSend_elim (fun _ => ⟨false, none, id, h⟩) (fun e hep => ?_)
    (fun e p _ _ hep _ => htouch hep (.inl (rdsRingPlace_rewrites env _ _ payload tag data context
      flags tagged genComp op)))
    (fun e p hep _ => htouch hep (.inr rfl))
    (fun e p hep _ _ => htouch hep (.inl (rdsRingConnect_rewrites env _ _)))
  obtain ⟨made, t', found, hget, hholds, hfound⟩ := h.peerGet hep
  obtain rfl := Option.map_eq_none_iff.mp hfound.symm
  refine ⟨true, made, id, ?_⟩
  rw [PeerCall.run, hget]
  exact hholds

/-- **A handshake message, in the list and in the table.** -/
theorem rdsRingHandleCtrl_table (h : t.Holds max ep) (env : Env) (hdr : Hdr)
    (payload : List UInt8) (srcFi : UInt64) :
    ∃ applies made upd, (PeerCall.run max t (.ctrl applies srcFi made upd)).Holds max
      (rdsRingHandleCtrl env ep hdr payload srcFi) := by
  have hfound {e : Ep} {p : Peer} (hep : rdsPeerGet env ep srcFi = (e, some p))
      {e' : Ep} (he' : e.Rewrites p e' ∨ e' = e) :
      ∃ applies made upd, (PeerCall.run max t (.ctrl applies srcFi made upd)).Holds max e' := by
    obtain ⟨made, t', found, hget, hholds, hfound⟩ := h.peerGet hep
    obtain ⟨i, rfl, rfl⟩ := Option.map_eq_some_iff.mp hfound.symm
    have hi : i < t'.made := ((h.sound.peerGet hget).2.2.2 i rfl).1
    have hrun (upd : Peer → Peer) : PeerCall.run max t (.ctrl true srcFi made upd)
        = t'.write i upd := by
      rw [PeerCall.run, hget]
      rfl
    refine ⟨true, made, ?_⟩
    simp only [hrun]
    obtain he' | rfl := he'
    · exact hholds.rewrites hi he'
    · exact ⟨id, hholds.unwritten i⟩
  refine rdsRingHandleCtrl_elim ⟨false, none, id, h⟩ (fun e hep => ?_)
    (fun e p hep => hfound hep (.inr rfl))
    (fun e p hep _ _ => hfound hep (.inl (.setPeer rfl rfl rfl)))
    (fun e p hep _ _ _ => hfound hep (.inl ?_))
  · obtain ⟨made, t', found, hget, hholds, hfound⟩ := h.peerGet hep
    obtain rfl := Option.map_eq_none_iff.mp hfound.symm
    refine ⟨true, made, id, ?_⟩
    rw [PeerCall.run, hget]
    exact hholds
  · obtain ⟨hside, hpeers, -, -⟩ := rdsRingSendCtrl_cases env e p rdsOpRingAck (.inr rfl)
    split
    · exact .setPeer hside.cfg hpeers rfl
    · exact .setPeer rfl rfl rfl

end PeerTable.Holds

/-! ## What is taken in -/

/-- **A relation that whatever an endpoint takes in obeys**, from the socket or out of a
ring. -/
structure Ep.TakesIn (R : Ep → Ep → Prop) : Prop where
  trans : ∀ {ep e e' : Ep}, R ep e → R e e' → R ep e'
  offRing : ∀ {ep e : Ep}, ep.OffRing e → R ep e
  handleCtrl : ∀ (env : Env) (ep : Ep) (hdr : Hdr) (payload : List UInt8) (srcFi : UInt64),
    R ep (rdsRingHandleCtrl env ep hdr payload srcFi)
  /-- A record that is there is written back. -/
  setPeer : ∀ {ep : Ep} {p q : Peer} {addr : UInt64}, rdsPeerFind ep addr = some p →
    q.addr = p.addr → R ep (ep.setPeer q)
  returnCredit : ∀ (env : Env) {ep : Ep} {p : Peer} {addr : UInt64},
    rdsPeerFind ep addr = some p → R ep (rdsRingReturnCredit env ep p)

namespace Ep.TakesIn

variable {R : Ep → Ep → Prop} (hR : Ep.TakesIn R)

include hR

theorem refl (ep : Ep) : R ep ep := hR.offRing (.refl ep)

theorem handleInbound (env : Env) (ep : Ep) (hdr : Hdr) (payload : List UInt8) (src : SockAddr)
    (srcFi : UInt64) : R ep (rdsHandleInbound env ep hdr payload src srcFi) := by
  exact rdsHandleInbound_elim (hR.refl ep) (fun p _ _ => hR.offRing (.pendingComplete ep p))
    (fun _ _ => hR.handleCtrl env ep hdr payload srcFi)
    (fun _ _ => hR.offRing (Ep.Inward.handleMessage env ep _).toOffRing)

theorem ringDeliver (env : Env) (ep : Ep) (sa : SockAddr) (addr : UInt64) (slot : RingSlot) :
    R ep (rdsRingDeliver env ep sa addr slot) := by
  exact rdsRingDeliver_elim (hR.refl ep) (fun hdr payload =>
    hR.handleInbound env ep hdr payload sa addr)

theorem ringPollSlot (env : Env) (ep : Ep) (addr : UInt64) :
    ∀ e ∈ rdsRingPollSlot env ep addr, R ep e := by
  intro e he
  obtain ⟨hnone, -⟩ | ⟨p, slot, e', hp, -, he', hlast⟩ := rdsRingPollSlot_cases env ep addr
  · rw [hnone] at he
    cases he
  rw [he'] at he
  cases he
  have habsorb : R ep (ep.setPeer (p.absorbAck slot.ack)) :=
    hR.setPeer hp (Peer.Steady.absorbAck p slot.ack).addr
  have hdeliver := hR.trans habsorb
    (hR.ringDeliver env (ep.setPeer (p.absorbAck slot.ack)) p.sa p.addr slot)
  obtain rfl | ⟨q, hq, hpassed⟩ := hlast
  · exact hdeliver
  have hconsume := hR.trans hdeliver
    (hR.setPeer (q := { q with rxHead := q.rxHead + 1 }) hq rfl)
  obtain rfl | rfl := hpassed
  · exact hconsume
  · rw [← rdsPeerFind_addr hq] at hq
    have hself := rdsPeerFind_setPeer_self (q := { q with rxHead := q.rxHead + 1 }) hq
    exact hR.trans hconsume (hR.returnCredit env hself)

theorem ringFlushCredit (env : Env) (ep : Ep) (addr : UInt64) :
    R ep (rdsRingFlushCredit env ep addr) := by
  exact rdsRingFlushCredit_elim (hR.refl ep) (fun p hp => hR.returnCredit env hp)

theorem ringPollLoop (env : Env) (addr : UInt64) (fuel : ℕ) (ep : Ep) (drained : Bool) :
    R ep (rdsRingPollLoop env addr fuel ep drained).1 := by
  induction fuel generalizing ep drained with
  | zero => exact hR.refl ep
  | succ fuel ih =>
    rw [rdsRingPollLoop]
    cases hslot : rdsRingPollSlot env ep addr with
    | none => exact hR.refl ep
    | some e => exact hR.trans (hR.ringPollSlot env ep addr e hslot) (ih e true)

theorem ringPollPeer (env : Env) (ep : Ep) (addr : UInt64) :
    R ep (rdsRingPollPeer env ep addr) := by
  have hloop : R ep (rdsRingPollLoop env addr ep.cfg.geom.slots.toNat ep false).1 :=
    hR.ringPollLoop env addr _ ep false
  unfold rdsRingPollPeer
  rcases hrun : rdsRingPollLoop env addr ep.cfg.geom.slots.toNat ep false with ⟨e, drained⟩
  rw [hrun] at hloop
  dsimp only at hloop ⊢
  split
  · exact hR.trans hloop (hR.ringFlushCredit env e addr)
  · exact hloop

end Ep.TakesIn

/-! ## Progress -/

/-- **The peers changed by calls other than sends.** -/
def Ep.Polled (max : UInt32) (ep e : Ep) : Prop :=
  ∀ t : PeerTable, t.Holds max ep → ∃ calls : List PeerCall, (∀ c ∈ calls, c.isSend = false)
    ∧ (calls.foldl (PeerCall.run max) t).Holds max e

namespace Ep.Polled

variable {max : UInt32} {ep e e' : Ep}

theorem of_eq (hpeers : e.peers = ep.peers) (hcfg : e.cfg = ep.cfg) : ep.Polled max e :=
  fun _ h => ⟨[], List.forall_mem_nil _, h.congr hpeers hcfg⟩

theorem refl (ep : Ep) : ep.Polled max ep := of_eq rfl rfl

theorem trans (h : ep.Polled max e) (h' : e.Polled max e') : ep.Polled max e' := by
  intro t ht
  obtain ⟨calls, hcalls, hholds⟩ := h t ht
  obtain ⟨calls', hcalls', hholds'⟩ := h' _ hholds
  refine ⟨calls ++ calls', List.forall_mem_append.mpr ⟨hcalls, hcalls'⟩, ?_⟩
  rw [List.foldl_append]
  exact hholds'

theorem rewrites {p : Peer} {addr : UInt64} (hp : rdsPeerFind ep addr = some p)
    (h : ep.Rewrites p e) : ep.Polled max e := by
  intro t ht
  rw [ht.find, Option.map_eq_some_iff] at hp
  obtain ⟨i, hi, rfl⟩ := hp
  have hmade : i < t.made := (ht.sound.find_eq_some.mp hi).1
  obtain ⟨upd, hupd⟩ := ht.rewrites hmade h
  refine ⟨[.write i upd], fun c hc => ?_, ?_⟩
  · rw [List.mem_singleton.mp hc]
    rfl
  · show (PeerCall.run max t (.write i upd)).Holds max e
    rw [PeerCall.run, if_pos hmade]
    exact hupd

theorem handleCtrl (env : Env) (ep : Ep) (hdr : Hdr) (payload : List UInt8) (srcFi : UInt64) :
    ep.Polled max (rdsRingHandleCtrl env ep hdr payload srcFi) := by
  intro t ht
  obtain ⟨applies, made, upd, hholds⟩ := ht.rdsRingHandleCtrl_table env hdr payload srcFi
  refine ⟨[.ctrl applies srcFi made upd], fun c hc => ?_, hholds⟩
  rw [List.mem_singleton.mp hc]
  rfl

theorem takesIn (max : UInt32) : Ep.TakesIn (Ep.Polled max) where
  trans := trans
  offRing h := of_eq h.peers h.cfg
  handleCtrl := handleCtrl
  setPeer hp hq := rewrites hp (.setPeer rfl rfl hq)
  returnCredit env ep p addr hp := by
    obtain ⟨-, h⟩ | ⟨-, h⟩ := rdsRingReturnCredit_cases env ep p
    · rw [h]
      exact rewrites hp (.setPeer rfl rfl rfl)
    · rw [h]
      exact rewrites hp (.setPeer rfl rfl rfl)

/-- Peers are visited one by one. -/
theorem foldl {visit : Ep → UInt64 → Ep} (hvisit : ∀ (ep : Ep) addr, ep.Polled max (visit ep addr))
    (addrOf : ℕ → UInt64) {l : List ℕ} (hl : l.Nodup) {t : PeerTable} {ep : Ep}
    (ht : t.Holds max ep) :
    ∃ visits : ℕ → List PeerCall, (∀ i, ∀ c ∈ visits i, c.isSend = false)
      ∧ (l.foldl (fun t i => (visits i).foldl (PeerCall.run max) t) t).Holds max
        ((l.map addrOf).foldl visit ep) := by
  induction l generalizing t ep with
  | nil => exact ⟨fun _ => [], fun _ => List.forall_mem_nil _, ht⟩
  | cons i l ih =>
    obtain ⟨hi, hl⟩ := List.nodup_cons.mp hl
    obtain ⟨calls, hcalls, hholds⟩ := hvisit ep (addrOf i) t ht
    obtain ⟨visits, hvisits, hholds'⟩ := ih hl hholds
    refine ⟨Function.update visits i calls, fun j => ?_, ?_⟩
    · by_cases hj : j = i
      · rw [hj, Function.update_self]
        exact hcalls
      · rw [Function.update_of_ne hj]
        exact hvisits j
    · -- the peers left are others, and their visits are as before
      have hrest (t : PeerTable) (j : ℕ) (hj : j ∈ l) :
          (Function.update visits i calls j).foldl (PeerCall.run max) t
            = (visits j).foldl (PeerCall.run max) t := by
        rw [Function.update_of_ne (ne_of_mem_of_not_mem hj hi)]
      rw [List.foldl_cons, Function.update_self, List.foldl_ext _ _ _ hrest]
      exact hholds'

end Ep.Polled

/-- **A pass, along the list and by the links.** The pass of the list model visits the peers
as they stood when it began; the walk along the links, which looks for the next peer only
when it is done with one, visits the same and ends with the same. -/
theorem PeerTable.Holds.rdsRingProgress_table {max : UInt32} {t : PeerTable} {ep : Ep}
    (h : t.Holds max ep) (env : Env) {steps : ℕ} (hsteps : t.lru.length ≤ steps) :
    ∃ visits : ℕ → List PeerCall, (∀ i, ∀ c ∈ visits i, c.isSend = false)
      ∧ (t.ringProgress max visits steps).1.Holds max (rdsRingProgress env ep)
      ∧ (t.ringProgress max visits steps).2.map (fun i => (t.mem i).addr)
        = ep.peers.map (·.addr) := by
  have haddrs : t.lru.map (fun i => (t.mem i).addr) = ep.peers.map (·.addr) := by
    rw [← h.records, ChainTable.records, List.map_map]
    rfl
  unfold rdsRingProgress
  split
  · refine ⟨fun _ => [], fun _ => List.forall_mem_nil _, ?_⟩
    rw [h.sound.ringProgress (fun _ => List.forall_mem_nil _) hsteps]
    refine ⟨?_, haddrs⟩
    show (t.lru.foldl (fun t _ => t) t).Holds max ep
    rw [List.foldl_fixed]
    exact h
  · have hvisit (ep : Ep) (addr : UInt64) : ep.Polled max (match rdsPeerFind ep addr with
        | none => ep
        | some p => if p.state = .ready then rdsRingPollPeer env ep addr else ep) := by
      split
      · exact .refl ep
      · split
        · exact (Ep.Polled.takesIn max).ringPollPeer env ep addr
        · exact .refl ep
    obtain ⟨visits, hvisits, hholds⟩ := Ep.Polled.foldl hvisit (fun i => (t.mem i).addr)
      h.sound.nodup h
    refine ⟨visits, hvisits, ?_⟩
    rw [h.sound.ringProgress hvisits hsteps]
    exact ⟨haddrs ▸ hholds, haddrs⟩
