import KickOS.Life.Lineage

/-! A claim that is released: the slots are as before, but for the kin of the occupant a claim reclaims and its stack. -/

namespace KickOS
namespace Spawn
open Life ThreadPool
open Function (update update_eq_self update_idem update_self)

variable {p p' q : ThreadPool} {n i j : Nat} {l : List Nat}

/-! ### The generations and the stacks -/

structure SameGens (p p' : ThreadPool) : Prop where
  gen : p'.gen = p.gen
  genHi : p'.genHi = p.genHi

theorem SameGens.trans (h : SameGens p q) (h' : SameGens q p') : SameGens p p' :=
  ⟨h'.gen.trans h.gen, h'.genHi.trans h.genHi⟩

theorem childLink_gens (tag child : Nat) : SameGens p (p.childLink tag child) := by
  rw [childLink]
  split_ifs <;> exact ⟨rfl, rfl⟩

theorem childLink_stacks (tag child : Nat) : (p.childLink tag child).stackFree = p.stackFree := by
  rw [childLink]
  split_ifs <;> rfl

theorem childUnlink_gens (child : Nat) : SameGens p (p.childUnlink child) ∧ (p.childUnlink child).stackFree = p.stackFree := by
  rw [childUnlink]
  split_ifs <;> exact ⟨⟨rfl, rfl⟩, rfl⟩

theorem orphan_gens : ∀ (l : List Nat) (p : ThreadPool), SameGens p (p.orphan l) ∧ (p.orphan l).stackFree = p.stackFree
  | [], _ => ⟨⟨rfl, rfl⟩, rfl⟩
  | k :: rest, p => by
    obtain ⟨hg, hs⟩ := orphan_gens rest (p.modify k fun c => { c with spawnerTag := killTagNone })
    exact ⟨SameGens.trans (q := p.modify k fun c => { c with spawnerTag := killTagNone }) ⟨rfl, rfl⟩ hg, hs⟩

theorem reclaim_gens (s : Nat) : SameGens p (p.reclaim s) := by
  rw [reclaim_eq]
  have hd : SameGens p (p.dropStack s) := by
    rw [dropStack]
    split_ifs <;> exact ⟨rfl, rfl⟩
  refine (hd.trans (childUnlink_gens s).1).trans (SameGens.trans ?_ (orphan_gens _ _).1)
  exact ⟨rfl, rfl⟩

theorem reclaim_stacks (s : Nat) : (p.reclaim s).stackFree =
    if (p.slots s).kstackOwned then (p.slots s).stackBase :: p.stackFree else p.stackFree := by
  rw [reclaim_eq, (orphan_gens _ _).2]
  show ((p.dropStack s).childUnlink s).stackFree = _
  rw [(childUnlink_gens s).2, dropStack]
  split_ifs <;> rfl

theorem genStep_unstep (hp : SameGens (p.genStep i) q) : SameGens p (q.genUnstep i) := by
  have hg : q.gen i = p.gen i + 1 := by
    rw [hp.gen]
    exact update_self _ _ _
  refine ⟨?_, ?_⟩
  · show update q.gen i (q.gen i - 1) = p.gen
    rw [hg, BitVec.add_sub_cancel, hp.gen]
    show update (update p.gen i _) i _ = p.gen
    rw [update_idem, update_eq_self]
  · show (if q.gen i = 0 then update q.genHi i (q.genHi i - 1) else q.genHi) = p.genHi
    rw [hg, hp.genHi]
    show (if p.gen i + 1 = 0 then _ else _) = p.genHi
    have hhi : (p.genStep i).genHi = if p.gen i + 1 = 0 then update p.genHi i (p.genHi i + 1) else p.genHi := rfl
    by_cases h0 : p.gen i + 1 = 0
    · rw [if_pos h0, hhi, if_pos h0, update_self, BitVec.add_sub_cancel, update_idem, update_eq_self]
    · rw [if_neg h0, hhi, if_neg h0]

/-! ### The release -/

/-- The pool is as before, but for its stacks and for the kin of the occupant that was reclaimed: its children are
orphans, and its spawner has it first among its own. -/
structure Returned (p p' : ThreadPool) : Prop where
  folk : SameFolk p p'
  next : p'.next = p.next
  reclaimable : p'.reclaimable = p.reclaimable
  gens : SameGens p p'
  tag : ∀ j, (p'.slots j).spawnerTag = (p.slots j).spawnerTag ∨
    ((p'.slots j).spawnerTag = killTagNone ∧ ∃ i, p.reclaimable.head? = some i ∧ (p.slots j).spawnerTag = i + 1)
  kids : ∀ j, p.reclaimable.head? ≠ some j → (p'.slots j).children.Perm (p.slots j).children

theorem Returned.resolve (h : Returned p p') (index : Nat) (gen : BitVec 16) : p'.resolve index gen = p.resolve index gen := by
  rw [ThreadPool.resolve, ThreadPool.resolve, h.next, h.gens.gen]

theorem release_again (h : Lineage n none p) {rest : List Nat} (hr : p.reclaimable = i :: rest)
    (hq : q = (({ p with reclaimable := rest } : ThreadPool).reclaim i).genStep i) :
    Returned p (({ q with stackFree := l } : ThreadPool).release i) ∧
      (({ q with stackFree := l } : ThreadPool).release i).stackFree = l := by
  obtain ⟨hlt, hroot, hex, -⟩ := h.listed i (by rw [hr]; exact List.mem_cons_self)
  have hnd : i ∉ rest ∧ rest.Nodup := by simpa [hr] using h.nodup
  have hpop : Lineage n none { p with reclaimable := rest } :=
    { h with
      listed := fun j hj => h.listed j (by rw [hr]; exact List.mem_cons_of_mem _ hj)
      nodup := hnd.2 }
  have hf := reclaim_folk (p := { p with reclaimable := rest }) i
  have hl := reclaim_lists (p := { p with reclaimable := rest }) i
  have hgens := reclaim_gens (p := { p with reclaimable := rest }) i
  have htag : ∀ j, _ := fun j => reclaim_tag (s := i) (j := j) hpop
  have hkid : ∀ j, _ := fun j => reclaim_children (s := i) (j := j) hpop
  subst hq
  generalize ({ p with reclaimable := rest } : ThreadPool).reclaim i = r at hf hl hgens htag hkid ⊢
  dsimp only at htag hkid
  have hstate : (r.slots i).state = .exited := (hf.state i).trans hex
  -- The release works on the slots of the reclaimed pool, its generations stepped.
  generalize hu : ({ r.genStep i with stackFree := l } : ThreadPool) = u
  have hus : u.slots = r.slots := by rw [← hu]; rfl
  have huf : SameFolk r u := by
    rw [← hu]
    exact ⟨rfl, rfl, fun _ => rfl, fun _ => rfl, fun _ => rfl, fun _ => rfl, fun _ => rfl, fun _ => rfl⟩
  have hug : SameGens (r.genStep i) u := by rw [← hu]; exact ⟨rfl, rfl⟩
  have hun : u.next = r.next ∧ u.reclaimable = r.reclaimable ∧ u.stackFree = l := by rw [← hu]; exact ⟨rfl, rfl, rfl⟩
  have htagi : (r.slots i).spawnerTag = (p.slots i).spawnerTag := by
    rw [htag, if_neg (h.not_self i)]
  have hcount : (r.slots i).spawnerTag ≤ (u.genUnstep i).count := by
    rw [htagi, (genUnstep_folk i).count, huf.count, hf.count,
      show ({ p with reclaimable := rest } : ThreadPool).count = n from h.count]
    exact h.tag_le i
  have hvs : (u.genUnstep i).slots = r.slots := hus
  rw [ThreadPool.release, if_pos (by rw [hus]; exact hstate)]
  dsimp only
  rw [hvs]
  have hcf := childLink_folk (p := u.genUnstep i) (r.slots i).spawnerTag i
  have hcl := childLink_lists (p := u.genUnstep i) (r.slots i).spawnerTag i
  have hcg := childLink_gens (p := u.genUnstep i) (r.slots i).spawnerTag i
  have hct : ∀ j, _ := fun j => childLink_tag (p := u.genUnstep i) (j := j) (r.slots i).spawnerTag i
  have hck : ∀ j, _ := fun j => childLink_children (p := u.genUnstep i) (j := j) hcount i
  have hcs := childLink_stacks (p := u.genUnstep i) (r.slots i).spawnerTag i
  generalize (u.genUnstep i).childLink (r.slots i).spawnerTag i = w at hcf hcl hcg hct hck hcs ⊢
  have hfolk : SameFolk p w :=
    SameFolk.trans (q := { p with reclaimable := rest })
      ⟨rfl, rfl, fun _ => rfl, fun _ => rfl, fun _ => rfl, fun _ => rfl, fun _ => rfl, fun _ => rfl⟩
      (hf.trans (huf.trans ((genUnstep_folk i).trans hcf)))
  refine ⟨⟨{ hfolk with },
    ?_, ?_, ?_, fun j => ?_, fun j hj => ?_⟩, hcs.trans hun.2.2⟩
  · exact hcl.next.trans (hun.1.trans hl.next)
  · show i :: w.reclaimable = p.reclaimable
    rw [hcl.reclaimable, hr]
    exact congrArg (i :: ·) (hun.2.1.trans hl.reclaimable)
  · exact SameGens.trans (q := r) ⟨hgens.gen, hgens.genHi⟩ ((genStep_unstep hug).trans ⟨hcg.gen, hcg.genHi⟩)
  · show (w.slots j).spawnerTag = _ ∨ _
    rw [show (w.slots j).spawnerTag = (r.slots j).spawnerTag by rw [hct, hvs], htag]
    by_cases hji : (p.slots j).spawnerTag = i + 1
    · rw [if_pos hji]
      exact .inr ⟨rfl, i, by rw [hr]; rfl, hji⟩
    · rw [if_neg hji]
      exact .inl rfl
  · have hji : j ≠ i := by
      rintro rfl
      rw [hr] at hj
      exact hj rfl
    show (w.slots j).children.Perm _
    rw [hck, hvs, hkid, if_neg hji, htagi]
    by_cases ht : (p.slots i).spawnerTag = j + 1
    · rw [if_pos ht, if_pos ht]
      exact (List.perm_cons_erase ((h.kids j i).2 ⟨ht, by simp⟩)).symm
    · rw [if_neg ht, if_neg ht]

theorem release_fresh (h : Lineage n none p) (hr : p.reclaimable = [])
    (hq : q = { p with next := p.next + 1, reclaimable := [] }) :
    Returned p (({ q with stackFree := l } : ThreadPool).release p.next) ∧
      (({ q with stackFree := l } : ThreadPool).release p.next).stackFree = l := by
  subst hq
  have hst : (p.slots p.next).state ≠ .exited := by
    rw [(h.blank p.next (le_refl _)).2.2.1]
    decide
  rw [ThreadPool.release, if_neg hst, if_pos rfl]
  exact ⟨⟨⟨rfl, rfl, fun _ => rfl, fun _ => rfl, fun _ => rfl, fun _ => rfl, fun _ => rfl, fun _ => rfl⟩,
    Nat.add_sub_cancel _ _, hr.symm, ⟨rfl, rfl⟩, fun _ => .inl rfl, fun _ _ => List.Perm.refl _⟩, rfl⟩

/-- The stacks that are free once a slot is claimed. -/
def claimStacks (p : ThreadPool) : List Nat :=
  match p.reclaimable with
  | [] => p.stackFree
  | s :: _ => if (p.slots s).kstackOwned then (p.slots s).stackBase :: p.stackFree else p.stackFree

theorem claim_stacks (hc : p.claim = (some i, q)) : q.stackFree = claimStacks p := by
  rw [ThreadPool.claim] at hc
  rw [claimStacks]
  cases hr : p.reclaimable with
  | nil =>
    rw [hr] at hc
    dsimp only at hc
    split_ifs at hc
    · cases hc
    · obtain ⟨-, rfl⟩ := Prod.mk.inj hc
      rfl
  | cons s rest =>
    rw [hr] at hc
    cases hc
    exact reclaim_stacks (p := { p with reclaimable := rest }) i

theorem claim_release (h : Lineage n none p) (hc : p.claim = (some i, q)) (l : List Nat) :
    Returned p (({ q with stackFree := l } : ThreadPool).release i) ∧
      (({ q with stackFree := l } : ThreadPool).release i).stackFree = l := by
  rw [ThreadPool.claim] at hc
  cases hr : p.reclaimable with
  | nil =>
    rw [hr] at hc
    dsimp only at hc
    split_ifs at hc
    · cases hc
    · obtain ⟨hi, hq⟩ := Prod.mk.inj hc
      cases hi
      exact release_fresh h hr hq.symm
  | cons s rest =>
    rw [hr] at hc
    cases hc
    exact release_again h hr rfl

end Spawn
end KickOS
