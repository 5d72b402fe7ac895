import RdsProv.AddressVector
import Mathlib.Data.List.Find

/-!
# Directed receives and late insertions

A receive may name the source it wants, as an index of the address vector. The source of
a message is looked up once, when the message arrives, and an unexpected message is kept
with what was found. If its sender was not in the vector yet, that is
`FI_ADDR_NOTAVAIL`, and stays so when the sender is inserted: no receive that names the
sender ever takes the message.

`directed_receive_iff` says that this is all that can go wrong. In every history of
insertions, arrivals and postings, receives directed to an index take the messages of the
address bound to it, the earliest first, exactly if none of the messages that wait arrived
before the address was bound.
-/

namespace Ep

/-- The earliest unexpected message from an address that has a tag a receive accepts; the
list is in the order of arrival. -/
def earliestFrom (ep : Ep) (src : SockAddr) (tag ignore : UInt64) (tagged : Bool) :
    Option Unexp :=
  (ep.unexp tagged).find?
    (fun m => m.src == src && (!tagged || rdsTagMatch tag ignore m.hdr.tag))

/-- **Receives directed to an index take what an address sent**: one that is posted takes
the earliest message there is for it, and one that waits has none waiting for it. -/
structure ServesDirected (ep : Ep) (f : UInt64) (src : SockAddr) : Prop where
  posting : ∀ env iov tag ignore context flags tagged, iov.length ≤ rdsIovLimit →
    (rdsPostRecv env ep iov f tag ignore context flags tagged).1.pairings
      = ep.pairings ++ ((ep.earliestFrom src tag ignore tagged).map
          (·, ep.postedEntry iov f tag ignore context flags tagged)).toList
  waiting : ∀ k, ∀ r ∈ ep.posted k, r.addr = f → ep.earliestFrom src r.tag r.ignore k = none

end Ep

namespace AvAct

/-- Everything but a removal. -/
def Keeps : AvAct → Prop
  | .remove _ => False
  | .insert .. | .ep _ => True

end AvAct

namespace Addressed

/-- **Messages are dated.** A message that waits is kept under the index its source is
bound to, if it was when the message arrived, and under none otherwise. -/
structure Dated (v : Addressed) : Prop where
  matching : v.ep.MatchInv
  agrees : v.Agrees (fun _ => True)
  boundAt : ∀ i, v.boundAt i ≤ v.ep.arrivals
  known : ∀ k, ∀ m ∈ v.ep.unexp k,
    m.addr = fiAddrNotavail ∨ v.av.binding m.addr.toNat = some m.src
  early : ∀ k, ∀ m ∈ v.ep.unexp k, ∀ i, v.av.binding i = some m.src →
    (m.addr = fiAddrNotavail ↔ m.no < v.boundAt i)

namespace Dated

variable {cfg : EpCfg} {domain : Domain} {v : Addressed}

theorem init (cfg : EpCfg) (domain : Domain) : (Addressed.init cfg domain).Dated where
  matching := .init _ _
  agrees := nofun
  boundAt _ := le_rfl
  known _ _ h := absurd h List.not_mem_nil
  early _ _ h := absurd h List.not_mem_nil

/-- An insertion dates its index after everything that waits. -/
theorem insert (h : v.Dated) (alloc : Bool) (addr : SockAddr) :
    (v.act (.insert alloc addr)).Dated := by
  have hmatching : (v.act (.insert alloc addr)).ep.MatchInv :=
    ⟨h.matching.kind, h.matching.complete, h.matching.postedSorted, h.matching.postedOld,
      h.matching.unexpSorted, h.matching.unexpOld, h.matching.pairedOld, h.matching.passed,
      h.matching.ordered⟩
  have hbounds : ∀ i, (v.act (.insert alloc addr)).boundAt i ≤ v.ep.arrivals := by
    intro i
    show (if _ then _ else _) ≤ _
    split
    · exact le_rfl
    · exact h.boundAt i
  have hagrees : (v.act (.insert alloc addr)).Agrees (fun _ => True) :=
    fun a p hp hlive => binding_insert_of_some (h.agrees a p hp hlive) alloc addr
  obtain hsame | ⟨n, hfree, hnew, hbind⟩ := v.av.binding_insert alloc addr
  · have hstays : ∀ i, (v.act (.insert alloc addr)).boundAt i = v.boundAt i := by
      intro i
      refine if_neg (fun hno => hno.2 ?_)
      rw [hsame]
      exact hno.1
    refine ⟨hmatching, hagrees, hbounds, fun k m hm => ?_, fun k m hm i hi => ?_⟩
    · exact (h.known k m hm).imp_right (congrFun hsame _).trans
    · rw [hstays]
      exact h.early k m hm i ((congrFun hsame i).symm.trans hi)
  · refine ⟨hmatching, hagrees, hbounds,
      fun k m hm => (h.known k m hm).imp_right (binding_insert_of_some · alloc addr),
      fun k m hm i hi => ?_⟩
    have hi : Function.update v.av.binding n (some addr) i = some m.src :=
      (congrFun hbind i).symm.trans hi
    by_cases hin : i = n
    · -- the source was not bound before, so that the message is kept under no index
      rw [hin, Function.update_self] at hi
      cases hi
      have hlate : (v.act (.insert alloc m.src)).boundAt i = v.ep.arrivals := by
        refine if_pos ⟨hin ▸ hfree, ?_⟩
        rw [hbind, hin, Function.update_self]
        exact Option.some_ne_none _
      rw [hlate]
      refine iff_of_true ?_ (h.matching.unexpOld k m hm)
      exact (h.known k m hm).resolve_right (hnew _)
    · rw [Function.update_of_ne hin] at hi
      have hstays : (v.act (.insert alloc addr)).boundAt i = v.boundAt i := by
        refine if_neg (fun hno => ?_)
        rw [hno.1] at hi
        cases hi
      rw [hstays]
      exact h.early k m hm i hi

/-- What waits has waited, or is a message that is dated. -/
theorem act_of (h : v.Dated) (hsees : v.Sees cfg) (a : EpAct)
    (hgrows : v.ep.arrivals ≤ (v.ep.act a).arrivals)
    (hunexp : ∀ k, ∀ m ∈ (v.ep.act a).unexp k, m ∈ v.ep.unexp k
      ∨ (m.no = v.ep.arrivals ∧ v.ep.heard a m.src m.addr)) : (v.act (.ep a)).Dated := by
  have hresolved {src : SockAddr} {addr : UInt64} (hheard : v.ep.heard a src addr) :
      (addr = fiAddrNotavail ∧ ∀ i, v.av.binding i ≠ some src)
        ∨ v.av.binding addr.toNat = some src := by
    cases a with
    | recv env s bytes =>
      obtain ⟨rfl, rfl⟩ := hheard
      rw [hsees]
      exact ofiIpAvGetFiAddr_withAv cfg src
    | poll env s =>
      obtain ⟨p, hp, rfl, rfl⟩ := hheard
      right
      rw [rdsPeerFind_addr hp]
      exact h.agrees s p hp trivial
    | _ => exact hheard.elim
  refine ⟨h.matching.step (.act v.ep a), h.agrees.act (fun _ _ => trivial) hsees a,
    fun i => (h.boundAt i).trans hgrows, fun k m hm => ?_, fun k m hm i hi => ?_⟩
  · obtain hm | ⟨-, hheard⟩ := hunexp k m hm
    · exact h.known k m hm
    · exact (hresolved hheard).imp_left (·.1)
  · obtain hm | ⟨hno, hheard⟩ := hunexp k m hm
    · exact h.early k m hm i hi
    · obtain ⟨-, hnone⟩ | hbound := hresolved hheard
      · exact absurd hi (hnone i)
      · refine iff_of_false (Av.ne_notavail_of_binding hbound) ?_
        rw [hno]
        exact not_lt.mpr (h.boundAt i)

/-- **The endpoint keeps messages dated.** -/
theorem act (h : v.Dated) (hsees : v.Sees cfg) (a : EpAct) : (v.act (.ep a)).Dated := by
  have hkept {e : Ep} (hun : e.Unmatched (v.ep.act a)) (harr : v.ep.arrivals ≤ e.arrivals)
      (hsub : ∀ k, ∀ m ∈ e.unexp k, m ∈ v.ep.unexp k) : (v.act (.ep a)).Dated :=
    h.act_of hsees a (harr.trans hun.arrivals)
      (fun k m hm => .inl (hsub k m (congrFun hun.unexp k ▸ hm)))
  cases Ep.Moves.act v.ep a with
  | quiet hun => exact hkept hun le_rfl (fun _ _ hm => hm)
  | cancel _ _ hun => exact hkept hun le_rfl (fun _ _ hm => hm)
  | offers k r hno hoffers =>
    cases hoffers with
    | refused _ hun => exact hkept hun le_rfl (fun _ _ hm => hm)
    | waits _ hun => exact hkept hun le_rfl (fun _ _ hm => hm)
    | given m _ hun =>
      exact hkept hun le_rfl
        (fun j _ hm => (Ep.update_sublist v.ep.unexp List.eraseP_sublist j).subset hm)
  | hears src addr hheard hhears =>
    obtain hun | ⟨m, rfl, rfl, hno, -, hmeets⟩ := hhears
    · exact hkept hun le_rfl (fun _ _ hm => hm)
    cases hmeets with
    | lost hun => exact hkept hun le_rfl (fun _ _ hm => hm)
    | taken _ _ hun => exact hkept hun (Nat.le_succ _) (fun _ _ hm => hm)
    | queued _ hun =>
      refine h.act_of hsees a ((Nat.le_succ _).trans hun.arrivals) (fun k m' hm' => ?_)
      obtain hm' | ⟨-, rfl⟩ := Ep.mem_update_append (congrFun hun.unexp k ▸ hm')
      · exact .inl hm'
      · exact .inr ⟨hno, hheard⟩

/-- **Messages are dated in every history without removals.** -/
theorem after (cfg : EpCfg) (domain : Domain) {acts : List AvAct} (hacts : ∀ a ∈ acts, a.Keeps) :
    (Addressed.after cfg domain acts).Dated := by
  have hboth : (Addressed.after cfg domain acts).Dated
      ∧ (Addressed.after cfg domain acts).Sees cfg := by
    refine List.foldlRecOn (motive := fun v => v.Dated ∧ v.Sees cfg) acts Addressed.act
      ⟨init cfg domain, rfl⟩ (fun v h a ha => ⟨?_, h.2.step a⟩)
    cases a with
    | insert alloc addr => exact h.1.insert alloc addr
    | remove fiAddr => exact (hacts _ ha).elim
    | ep a => exact h.1.act h.2 a
  exact hboth.1

variable {f : UInt64} {src : SockAddr}

/-- Where every message of an address arrived after it was bound, a receive directed to the
index takes the messages of the address and no others. -/
theorem find?_directed (h : v.Dated) (hbound : v.av.binding f.toNat = some src)
    (hlate : ∀ k, ∀ m ∈ v.ep.unexp k, m.src = src → v.boundAt f.toNat ≤ m.no) {r : RxEntry}
    (hr : r.addr = f) (k : Bool) :
    (v.ep.unexp k).find? (fun m => rdsMatches k r m.addr m.hdr.tag)
      = v.ep.earliestFrom src r.tag r.ignore k := by
  have hf := Av.ne_notavail_of_binding hbound
  refine List.find?_congr (fun m hm => ?_)
  have haddr : rdsAddrMatch r.addr m.addr = (m.src == src) := by
    rw [hr, Bool.eq_iff_iff]
    simp only [rdsAddrMatch, Bool.or_eq_true, beq_iff_eq]
    constructor
    · rintro (hun | heq)
      · exact absurd hun hf
      · have hsome := (h.known k m hm).resolve_left (heq ▸ hf)
        rw [← heq, hbound] at hsome
        exact (Option.some.inj hsome).symm
    · intro hsrc
      have hknown : m.addr ≠ fiAddrNotavail := by
        rw [Ne, h.early k m hm f.toNat (hsrc ▸ hbound)]
        exact not_lt.mpr (hlate k m hm hsrc)
      have hsome := (h.known k m hm).resolve_left hknown
      rw [hsrc] at hsome
      exact .inr (UInt64.toNat_inj.mp (v.av.unique _ _ _ hbound hsome))
  rw [rdsMatches, haddr]

/-- What is bound late is not served: the first of the messages that came early is taken by
no receive directed to the index. -/
theorem late_of_serves (h : v.Dated) (hbound : v.av.binding f.toNat = some src)
    (hserves : v.ep.ServesDirected f src) {k : Bool} {m : Unexp} (hm : m ∈ v.ep.unexp k)
    (hsrc : m.src = src) : v.boundAt f.toNat ≤ m.no := by
  by_contra hearly
  -- a receive that takes any tag
  have hposting := hserves.posting (Env.calm fun _ _ => .ok 1) [] 0 (~~~0) 0 0 k (by decide)
  rw [(Ep.Offers.postRecv _ v.ep (by decide) f 0 (~~~0) 0 0 k).pairings,
    List.append_cancel_left_eq] at hposting
  have htag (t : UInt64) : (!k || rdsTagMatch 0 (~~~0) t) = true := by
    rw [Bool.or_eq_true]
    right
    simp [rdsTagMatch]
  have hfirst : ∃ m₁, v.ep.earliestFrom src 0 (~~~0) k = some m₁ := by
    refine Option.isSome_iff_exists.mp (List.find?_isSome.mpr ⟨m, hm, ?_⟩)
    rw [hsrc, beq_self_eq_true, Bool.true_and]
    exact htag _
  obtain ⟨m₁, hm₁⟩ := hfirst
  rw [hm₁] at hposting
  have htaken : (v.ep.unexp k).find? (fun ux => rdsMatches k
      (v.ep.postedEntry [] f 0 (~~~0) 0 0 k) ux.addr ux.hdr.tag) = some m₁ := by
    cases hfind : (v.ep.unexp k).find? (fun ux => rdsMatches k
        (v.ep.postedEntry [] f 0 (~~~0) 0 0 k) ux.addr ux.hdr.tag) with
    | none =>
      rw [hfind] at hposting
      cases hposting
    | some m₂ =>
      rw [hfind] at hposting
      cases hposting
      rfl
  -- it was kept under the index, although it came before the one that was not
  have hmem₁ := List.mem_of_find?_eq_some hm₁
  have hsrc₁ : m₁.src = src := by
    have hsome := List.find?_some hm₁
    rw [Bool.and_eq_true, beq_iff_eq] at hsome
    exact hsome.1
  have hno₁ : m₁.no < v.boundAt f.toNat := by
    refine (not_lt.mp (fun hlt => ?_)).trans_lt (not_le.mp hearly)
    have hskip := List.find?_lowest hm₁ (h.matching.unexpSorted k) hm hlt
    rw [hsrc, beq_self_eq_true, Bool.true_and, htag] at hskip
    cases hskip
  have hunknown := (h.early k m₁ hmem₁ f.toNat (hsrc₁ ▸ hbound)).mpr hno₁
  have hmatch := List.find?_some htaken
  rw [rdsMatches, Bool.and_eq_true, hunknown] at hmatch
  have hf := Av.ne_notavail_of_binding hbound
  have hno : rdsAddrMatch f fiAddrNotavail = false := by
    simp only [rdsAddrMatch, Bool.or_eq_false_iff, beq_eq_false_iff_ne]
    exact ⟨hf, hf⟩
  rw [show (v.ep.postedEntry [] f 0 (~~~0) 0 0 k).addr = f from rfl, hno] at hmatch
  cases hmatch.1

end Dated

/-- **Directed receives are served exactly if nothing came too early.** In every history of
insertions and of whatever happens at the endpoint, with an index bound to an address: every
receive directed to the index takes the earliest message of the address it can take, if and
only if all messages of the address that wait arrived after it was bound. -/
theorem directed_receive_iff (cfg : EpCfg) (domain : Domain) (acts : List AvAct)
    (hacts : ∀ a ∈ acts, a.Keeps) (f : UInt64) (src : SockAddr)
    (hbound : (after cfg domain acts).av.binding f.toNat = some src) :
    (after cfg domain acts).ep.ServesDirected f src
      ↔ ∀ k, ∀ m ∈ (after cfg domain acts).ep.unexp k, m.src = src →
          (after cfg domain acts).boundAt f.toNat ≤ m.no := by
  have h := Dated.after cfg domain hacts
  constructor
  · intro hserves k m hm hsrc
    exact h.late_of_serves hbound hserves hm hsrc
  · intro hlate
    refine ⟨fun env iov tag ignore context flags tagged hcount => ?_, fun k r hr haddr => ?_⟩
    · rw [(Ep.Offers.postRecv env _ hcount f tag ignore context flags tagged).pairings,
        h.find?_directed hbound hlate rfl]
      rfl
    · rw [← h.find?_directed hbound hlate haddr]
      refine List.find?_eq_none.mpr (fun m hm => ?_)
      have hno := h.matching.complete k r hr m hm
      rw [RxEntry.takes, h.matching.kind k m hm] at hno
      rw [hno]
      exact Bool.false_ne_true

/-- A message of four bytes from the address 20. -/
def greeting : AvAct :=
  .ep (.recv (Env.calm fun _ _ => .ok 1) 20 ((eagerHdr false 0 0 0 4).encode ++ [1, 2, 3, 4]))

/-- An endpoint with directed receives. -/
def directedCfg : EpCfg := { EpCfg.standard false [] 10 with caps := fiDirectedRecv }

/-- Inserted first, the sender is served. -/
theorem inserted_sender_is_served :
    let acts := [.insert true 20, greeting]
    let v := after directedCfg (.opened true (some 3) 1024 268435456) acts
    (∀ a ∈ acts, a.Keeps) ∧ v.av.binding (0 : UInt64).toNat = some 20
      ∧ (v.ep.unexp false).length = 1 ∧ v.ep.ServesDirected 0 20 := by
  intro acts v
  have hacts : ∀ a ∈ acts, a.Keeps := by simp [acts, AvAct.Keeps, greeting]
  have hbound : v.av.binding (0 : UInt64).toNat = some 20 := by decide +kernel
  have hlate : ∀ k, ∀ m ∈ v.ep.unexp k, m.src = 20 → v.boundAt (0 : UInt64).toNat ≤ m.no := by
    decide +kernel
  exact ⟨hacts, hbound, by decide +kernel,
    (directed_receive_iff directedCfg _ acts hacts 0 20 hbound).mpr hlate⟩

/-- **Inserted later, the sender is not.** Its message waits, and a receive directed to it is
posted, yet the two do not meet. -/
theorem early_message_is_passed_over :
    let v := after directedCfg (.opened true (some 3) 1024 268435456) [greeting, .insert true 20]
    let ep := (rdsPostRecv (Env.calm fun _ _ => .ok 1) v.ep [⟨4096, 4⟩] 0 0 0 7 0 false).1
    v.av.binding (0 : UInt64).toNat = some 20 ∧ (v.ep.earliestFrom 20 0 0 false).isSome
      ∧ ep.pairings = [] ∧ (ep.posted false).length = 1 ∧ (ep.unexp false).length = 1 := by
  decide +kernel

end Addressed
