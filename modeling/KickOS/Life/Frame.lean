import KickOS.Life.Run

/-! What the functions on domains and on tasks leave alone. -/

namespace KickOS
namespace Life
namespace Pools

variable {g : Geometry} {s s' : Pools} {d t t' i j : Nat}

/-- Nothing but domains, their free list and their windows differs. -/
structure DomOnly (s s' : Pools) : Prop where
  pool : s'.pool = s.pool
  tasks : s'.tasks = s.tasks
  births : s'.births = s.births

theorem DomOnly.refl (s : Pools) : DomOnly s s := ⟨rfl, rfl, rfl⟩

theorem DomOnly.trans {u : Pools} (h : DomOnly s u) (h' : DomOnly u s') : DomOnly s s' :=
  ⟨h'.pool.trans h.pool, h'.tasks.trans h.tasks, h'.births.trans h.births⟩

theorem setDom_only (f : Domain → Domain) : DomOnly s (s.setDom d f) := ⟨rfl, rfl, rfl⟩

theorem domainRef_only : ∀ o : Option Nat, DomOnly s (s.domainRef o)
  | none => .refl s
  | some d => by
    rw [domainRef]
    split_ifs
    · exact .refl s
    · exact setDom_only _

theorem domFreePut_only : DomOnly s (s.domFreePut d) := by
  rw [domFreePut]
  split_ifs
  · exact .refl s
  · exact ⟨rfl, rfl, rfl⟩

theorem dropSpace_only : DomOnly s (s.dropSpace d).2 := ⟨rfl, rfl, rfl⟩

theorem releaseLoop_only : ∀ (fuel : Nat) (s : Pools) (o : Option Nat), DomOnly s (releaseLoop g fuel s o)
  | 0, s, _ => .refl s
  | _ + 1, s, none => .refl s
  | fuel + 1, s, some d => by
    rw [releaseLoop]
    have hset : DomOnly s (s.setDom d fun x => { x with refcount := x.refcount - 1 }) := setDom_only _
    dsimp only
    split_ifs
    · exact .refl s
    · exact hset
    · exact hset.trans (domFreePut_only.trans (dropSpace_only.trans (releaseLoop_only fuel _ _)))
    · exact hset.trans domFreePut_only

theorem domainRelease_only (o : Option Nat) : DomOnly s (s.domainRelease g o) := releaseLoop_only _ s o

theorem domFreeSlot_only : DomOnly s (s.domFreeSlot g).2 := by
  rw [domFreeSlot]
  split
  · exact ⟨rfl, rfl, rfl⟩
  · dsimp only
    split_ifs
    · exact .refl s
    · exact ⟨rfl, rfl, rfl⟩

theorem claimSlot_only (a : DomainAsk) : DomOnly s (s.claimSlot g a).2 := by
  have hslot := domFreeSlot_only (g := g) (s := s)
  rw [claimSlot]
  generalize s.domFreeSlot g = r at hslot
  obtain ⟨_ | d, u⟩ := r
  · exact hslot
  · refine hslot.trans ?_
    have hclear : DomOnly u (((u.dropSpace d).2.setDom d fun _ => {}).domainRelease g (u.dropSpace d).1) :=
      dropSpace_only.trans ((setDom_only _).trans (domainRelease_only _))
    dsimp only
    split_ifs
    · exact hclear.trans domFreePut_only
    · exact hclear.trans ⟨rfl, rfl, rfl⟩
    · refine hclear.trans ?_
      generalize ((u.dropSpace d).2.setDom d fun _ => {}).domainRelease g (u.dropSpace d).1 = v
      have hseed : DomOnly v ((v.setDom d fun x => { x with space := true }).dropSpace d).2 := ⟨rfl, rfl, rfl⟩
      exact hseed.trans domFreePut_only
    · exact ⟨rfl, rfl, rfl⟩

theorem handoff_only (a : DomainAsk) (donor : Option Nat) : DomOnly s (s.handoff g a donor d).2 := by
  cases donor with
  | none => exact domainRelease_only _
  | some e =>
    rw [handoff]
    split_ifs
    · have hedge : DomOnly s (s.setDom d fun x => { x with borrowedFrom := some (s.owner e a.passedOn) }) := setDom_only _
      exact hedge.trans (domainRef_only (some (s.owner e a.passedOn)))
    · exact domainRelease_only _

theorem domainFor_only (a : DomainAsk) (donor : Option Nat) : DomOnly s (s.domainFor g a donor).2 := by
  have hclaim := claimSlot_only (g := g) (s := s) a
  rw [domainFor]
  split_ifs
  · exact .refl s
  · exact hclaim
  · exact .refl s
  · exact .refl s
  all_goals
    generalize s.claimSlot g a = r at hclaim
    obtain ⟨_ | d, u⟩ := r
    · exact hclaim
  · exact hclaim.trans (handoff_only a donor)
  · exact hclaim

theorem domainShed_only : DomOnly s (s.domainShed d) := by
  rw [domainShed]
  split_ifs
  · exact .refl s
  · exact ⟨rfl, rfl, rfl⟩

theorem freeDomain_only : DomOnly s (s.freeDomain g d) := by
  rw [freeDomain]
  split_ifs
  · have hretire : DomOnly s (s.retireHandoff d).2 := ⟨rfl, rfl, rfl⟩
    exact hretire.trans (domainShed_only.trans ((domainRelease_only _).trans (domainRelease_only _)))
  · exact domainRelease_only _

theorem unmapHolder_only (o : Option Nat) (holder : Nat) : DomOnly s (s.unmapHolder g o holder) := by
  cases o with
  | none => exact .refl s
  | some d =>
    rw [unmapHolder]
    split_ifs
    · refine List.foldlRecOn (motive := fun u => DomOnly s u) _ _ (.refl s) fun u hu w _ => hu.trans ?_
      have herase : DomOnly u { u with windows := u.windows.erase w } := ⟨rfl, rfl, rfl⟩
      exact herase.trans (domainRelease_only _)
    · exact .refl s

theorem spawnMapWindows_only (o own : Option Nat) (ws : List Bool) : DomOnly s (s.spawnMapWindows o own i ws) := by
  rw [spawnMapWindows]
  refine List.foldlRecOn (motive := fun u => DomOnly s u) _ _ (.refl s) fun u hu w _ => hu.trans ?_
  have hcons : DomOnly u { u with windows := w :: u.windows } := ⟨rfl, rfl, rfl⟩
  exact hcons.trans (domainRef_only _)

theorem freeTask_frame (t : Nat) : (s.freeTask g t).pool = s.pool ∧ (s.freeTask g t).births = s.births ∧
    (s.freeTask g t).tasks = Function.update s.tasks t
      { s.tasks t with
        domain := none, creatorTag := killTagNone, gen := (s.tasks t).gen + 1, frees := (s.tasks t).frees + 1 } := by
  rw [freeTask]
  cases (s.tasks t).domain with
  | none => exact ⟨rfl, rfl, rfl⟩
  | some d =>
    have hf := freeDomain_only (g := g) (s := s) (d := d)
    refine ⟨hf.pool, hf.births, ?_⟩
    show Function.update (s.freeDomain g d).tasks t _ = _
    rw [hf.tasks]

/-- The record of a task behind the drop of its creator's hold. -/
def dropped (x : TaskRec) : TaskRec :=
  if x.refcount = 0 then
    { x with domain := none, creatorTag := killTagNone, gen := x.gen + 1, frees := x.frees + 1 }
  else { x with creatorTag := killTagNone }

theorem dropped_refcount (x : TaskRec) : (dropped x).refcount = x.refcount := by
  rw [dropped]
  split_ifs <;> rfl

theorem dropped_domain (x : TaskRec) : (dropped x).domain = if x.refcount = 0 then none else x.domain := by
  rw [dropped]
  split_ifs <;> rfl

theorem dropped_gen (x : TaskRec) (h : x.gen = BitVec.ofNat 16 x.frees) :
    (dropped x).gen = BitVec.ofNat 16 (dropped x).frees := by
  rw [dropped]
  split_ifs
  · show x.gen + 1 = BitVec.ofNat 16 (x.frees + 1)
    rw [h, BitVec.ofNat_add]
    rfl
  · exact h

theorem taskDropHold_none (h : (s.tasks t).creatorTag = killTagNone) : s.taskDropHold g t = s := by
  rw [taskDropHold, if_pos h]

theorem taskDropHold_frame (h : (s.tasks t).creatorTag ≠ killTagNone) :
    (s.taskDropHold g t).pool = ((s.addMembers t).unhold t).pool ∧ (s.taskDropHold g t).births = s.births ∧
      (s.taskDropHold g t).tasks = Function.update s.tasks t (dropped (s.tasks t)) := by
  have hpool : ∀ u : Pools, u = s.addMembers t → (u.unhold t).births = s.births ∧
      (u.unhold t).tasks = Function.update s.tasks t { s.tasks t with creatorTag := killTagNone } := by
    rintro u rfl
    rw [unhold]
    dsimp only
    split_ifs
    · exact ⟨rfl, rfl⟩
    · exact ⟨rfl, rfl⟩
  obtain ⟨hb, ht⟩ := hpool _ rfl
  have hcount : (((s.addMembers t).unhold t).tasks t).refcount = (s.tasks t).refcount := by
    rw [ht, Function.update_self]
  rw [taskDropHold, if_neg h]
  dsimp only
  rw [hcount, dropped]
  split_ifs with h0
  · obtain ⟨f1, f2, f3⟩ := freeTask_frame (g := g) (s := (s.addMembers t).unhold t) t
    refine ⟨f1, f2.trans hb, ?_⟩
    rw [f3, ht, Function.update_idem, Function.update_self]
  · have hf := domainRelease_only (g := g) (s := (s.addMembers t).unhold t) (((s.addMembers t).unhold t).tasks t).domain
    exact ⟨hf.pool, hf.births.trans hb, hf.tasks.trans ht⟩

end Pools
end Life
end KickOS
