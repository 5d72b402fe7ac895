import RdsProv.AddressVector

/-!
# The ring and the address vector

A record of a peer keeps the address it was created with, under the index it was created
for. The datagram paths look the index up each time; the ring writes to the address in the
record, and messages polled from the ring are matched under the record's index. So the ring
follows the vector as long as the records do.

Only a removal can part them. A record is created with the binding of its index, an
insertion binds an index that is free, and nothing else touches either. A removal that frees
the index of a record leaves a ring whose messages are matched under an index of nobody –
and, once the index is given to another address, a ring that sends to the wrong process.
`ring_follows_av_iff` says that a history is free of such removals exactly if the records
agree with the vector all along.
-/

namespace Addressed

variable {cfg : EpCfg} {domain : Domain} {v : Addressed}

/-- A record that was not disabled, and may be used. -/
abbrev Usable (s : PeerState) : Prop := s ≠ .disabled

/-- **The ring follows the vector.** What `rds_ring_send` accepts for an index is written to
the address the index is bound to, and a message polled from a `READY` peer's ring is
matched under an index that is bound to its source. -/
structure RingFollows (v : Addressed) : Prop where
  sends : ∀ env payload dest tag data context flags tagged genComp op,
    (rdsRingSend env v.ep payload dest tag data context flags tagged genComp op).2 = .ok →
    ∃ w, (rdsRingSend env v.ep payload dest tag data context flags tagged genComp op).1.writes
        = v.ep.writes ++ [w] ∧ v.av.binding dest.toNat = some w.dst
  polls : ∀ env addr p, rdsPeerFind v.ep addr = some p → p.state = .ready →
    v.ep.Unmatched ((rdsRingPollSlot env v.ep addr).getD v.ep)
      ∨ ∃ m : Unexp, v.ep.Meets m ((rdsRingPollSlot env v.ep addr).getD v.ep)
        ∧ v.av.binding m.addr.toNat = some m.src

/-- A removal frees no index that a usable record is kept under. -/
def Vacates (v : Addressed) : AvAct → Prop
  | .remove f => (v.av.remove f.toNat).binding f.toNat = none →
      ∀ p, rdsPeerFind v.ep f = some p → p.state = .disabled
  | .insert .. | .ep _ => True

/-- **The ring follows the vector where the records do.** -/
theorem Agrees.ringFollows (hsees : v.Sees cfg) (h : v.Agrees Usable) : v.RingFollows where
  sends env payload dest tag data context flags tagged genComp op hok := by
    obtain ⟨hfail, -⟩ | ⟨-, -, e, p, flags', tag', data', hquiet, hp, rfl, hready, -, -, heq, -⟩ :=
      rdsRingSend_ring env v.ep payload dest tag data context flags tagged genComp op
        (fun _ => RingInput.any_expires dest) rfl
    · exact absurd hok hfail
    · refine ⟨p.slotWrite (p.fillSlot op flags' tag' data' payload), ?_, ?_⟩
      · rw [heq, hquiet.writes]
      · have hb := hquiet.book.rules.agrees (fun _ hs => hs) (h.ringBook hsees) p.addr p hp
          (by rw [hready]; decide)
        rw [hsees.rdsAvAddr] at hb
        exact hb
  polls env addr p hp hready := by
    obtain hquiet | ⟨q, hq, hquiet | ⟨m, hsrc, haddr, -, -, hmeets⟩⟩ :=
      Ep.Hears.ringPollSlot env v.ep addr
    · exact .inl hquiet
    · exact .inl hquiet
    · cases hp.symm.trans hq
      refine .inr ⟨m, hmeets, ?_⟩
      rw [hsrc, haddr, rdsPeerFind_addr hp]
      exact h addr p hp (by rw [hready]; decide)

/-- **A step keeps the records in agreement exactly if it vacates what it frees.** -/
theorem Agrees.step_iff (hsees : v.Sees cfg) (h : v.Agrees Usable) (a : AvAct) :
    (v.act a).Agrees Usable ↔ v.Vacates a := by
  cases a with
  | insert alloc addr =>
    refine iff_of_true (fun a p hp hlive => ?_) trivial
    exact binding_insert_of_some (h a p hp hlive) alloc addr
  | ep a => exact iff_of_true (h.act (fun _ hs => hs) hsees a) trivial
  | remove f =>
    constructor
    · intro hagrees hfree p hp
      by_contra hlive
      have hbound : (v.av.remove f.toNat).binding f.toNat = some p.sa := hagrees f p hp hlive
      rw [hfree] at hbound
      cases hbound
    · intro hvacates a p hp hlive
      have hbound : v.av.binding a.toNat = some p.sa := h a p hp hlive
      obtain hsame | hfreed := v.av.binding_remove f.toNat
      · exact (congrFun hsame _).trans hbound
      · have haf : a.toNat ≠ f.toNat := by
          intro haf
          have hfree : (v.av.remove f.toNat).binding f.toNat = none := by
            rw [hfreed, Function.update_self]
          exact hlive (hvacates hfree p (UInt64.toNat_inj.mp haf ▸ hp))
        refine (congrFun hfreed _).trans ?_
        rw [Function.update_of_ne haf]
        exact hbound

/-- **The ring follows the vector exactly if removals vacate what they free.** In every
history of insertions and removals interleaved with whatever happens at the endpoint: the
usable records agree with the vector in every state, if and only if no removal frees an index
that a usable record is kept under; and in every state in which they do, the ring follows the
vector. -/
theorem ring_follows_av_iff (cfg : EpCfg) (domain : Domain) (acts : List AvAct) :
    ((∀ pre, pre <+: acts → (after cfg domain pre).Agrees Usable)
        ↔ Along act Vacates (init cfg domain) acts)
      ∧ ∀ pre, pre <+: acts → (after cfg domain pre).Agrees Usable →
          (after cfg domain pre).RingFollows := by
  refine ⟨Iff.symm ?_, fun pre _ h => h.ringFollows (Sees.after cfg domain pre)⟩
  exact @Along.iff_forall_prefix Addressed AvAct act Vacates (Sees cfg) (Agrees Usable)
    (fun v a hv => hv.step a) (fun v a hv h => h.step_iff hv a) (init cfg domain) rfl nofun acts

/-- The sender at 20 is inserted, shakes hands, and is removed; the address 30 is given its
index. -/
def replaced : List AvAct :=
  [.insert true 20,
    .ep (.recv (Env.calm fun calls _ => .ok (UInt64.ofNat calls.length)) 20
      ((ctrlHdr rdsOpRingReq).encode ++ (RingInfo.mk 7 8 16 1024).encode)),
    .remove 0, .insert true 30]

/-- **A message for one process is written to another.** The index 0 is bound to the address
30, and what is sent to it goes to the ring of the process at 20. -/
theorem ring_writes_to_the_removed :
    let v := after (EpCfg.standard true [] 10) (.opened false (some 3) 0 0) replaced
    let r := rdsRingSend (Env.calm fun _ _ => .ok 1) v.ep [1, 2, 3, 4] 0 0 0 7 0 false true
      rdsOpEager
    v.av.binding (0 : UInt64).toNat = some 30 ∧ r.2 = .ok ∧ r.1.writes.map (·.dst) = [20] := by
  decide +kernel

end Addressed
