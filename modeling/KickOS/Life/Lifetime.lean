import KickOS.Life.Accounts

/-! The lifetime of tasks and domains over whole runs: every reference of a domain has its holder, a domain is free exactly
when nothing holds it, and the handle of a freed task does not come back before the generations wrap. -/

namespace KickOS
namespace Life
namespace Pools

open ThreadPool

variable {g : Geometry} {s s' : Pools} {d t i c tk : Nat} {k : Nat → Nat} {x : Option (Nat × Nat)}

theorem taskRef_pool (q : ThreadPool) (b t : Nat) :
    ({ s with pool := q, births := b } : Pools).taskRef t = { s.taskRef t with pool := q, births := b } := by
  have hdom : ∀ o, ({ s with pool := q, births := b } : Pools).domainRef o = { s.domainRef o with pool := q, births := b } := by
    intro o
    cases o with
    | none => rfl
    | some d =>
      rw [domainRef, domainRef]
      split_ifs <;> rfl
  rw [taskRef, taskRef, hdom]
  dsimp only
  split_ifs <;> rfl

theorem Sound.spawnUnwind (h : Sound g (some (i, tk)) k s) (block : Option Nat) :
    Sound g none k (s.spawnUnwind g tk i block) := by
  unfold Pools.spawnUnwind
  by_cases ht : g.translating = true
  · rw [if_pos ht]
    exact h.unmapHolder.folk (release_folk i)
  · rw [if_neg ht]
    have hf := h.flat (by simpa using ht) none
    cases block with
    | none => exact hf.folk (release_folk i)
    | some b =>
      have hpush : SameFolk s.pool (s.pool.stackPush b) :=
        ⟨rfl, rfl, fun _ => rfl, fun _ => rfl, fun _ => rfl, fun _ => rfl, fun _ => rfl, fun _ => rfl⟩
      exact hf.folk (hpush.trans (release_folk i))

/-- A task a thread may be spawned into. -/
structure Joinable (g : Geometry) (s : Pools) (tk : Nat) : Prop where
  inUse : TaskRec.InUse (s.tasks tk)
  cores : g.cores ≤ tk

theorem Sound.spawnCommit (h : Sound g (some (i, tk)) (fun _ => 0) s) (hi : i < g.threads) (h0 : (s.pool.slots i).task = none)
    (htk : Joinable g s tk) (c base : Nat) (owned driver : Bool) :
    Sound g none (fun _ => 0) (s.spawnCommit c tk i base owned driver) := by
  have href := h.taskRef htk.inUse htk.cores
  obtain ⟨d, hd⟩ := Option.ne_none_iff_exists'.1 (h.held tk htk.inUse)
  have hpool : (s.taskRef tk).pool = s.pool := (taskRef_kept tk).pool
  rw [Pools.spawnCommit, taskRef_pool]
  generalize hr : ({ state := _, spawnerTag := killTagForIndex c, task := some tk, kstackOwned := owned, stackBase := base,
                     stamp := s.births, spawnedBy := (s.pool.slots c).stamp } : Tcb) = r
  have hf := childLink_folk (p := s.pool.modify i fun _ => r) r.spawnerTag i
  have hmod : ∀ j, (s.pool.modify i fun _ => r).slots j = if j = i then r else s.pool.slots j := fun j => modify_slots _
  refine href.join hi ⟨htk.cores, (h.named tk d hd).1⟩ (by rw [hpool]; exact h0) ?_ ?_
  · intro j hj
    have hslot : (s.pool.modify i fun _ => r).slots j = s.pool.slots j := by rw [hmod, if_neg hj]
    rw [hpool, ← hslot]
    exact ⟨hf.task j, hf.dying j, hf.state j⟩
  · have hslot : (s.pool.modify i fun _ => r).slots i = r := by rw [hmod, if_pos rfl]
    have hrt : r.task = some tk ∧ r.dying = false ∧ r.state ≠ .exited := by
      rw [← hr]
      refine ⟨rfl, rfl, fun hk => ?_⟩
      cases driver <;> cases hk
    rw [← hslot] at hrt
    exact ⟨(hf.task i).trans hrt.1, (hf.dying i).trans hrt.2.1, fun hk => hrt.2.2 ((hf.state i).symm.trans hk)⟩

theorem Sound.none_held (h : Sound g none k s) (h0 : (s.pool.slots i).task = none) :
    (s.windows.countP fun w => decide (w.holder = i)) = 0 := by
  rw [List.countP_eq_zero]
  intro w hw hk
  rcases h.windows w hw with ⟨v, h1, -, -⟩ | ⟨v, h1, -⟩
  · rw [of_decide_eq_true hk, h0] at h1
    cases h1
  · cases h1

theorem Sound.begin (h : Sound g none k s) (y : Nat × Nat) : Sound g (some y) k s :=
  { h with
    windows := fun w hw => (h.windows w hw).imp id fun ⟨v, hv, _⟩ => by cases hv }

theorem Sound.spawnMapWindows (h : Sound g none k s) (ht : g.translating = true) (hi : i < g.threads)
    (h0 : (s.pool.slots i).task = none) (htk : Joinable g s tk) (hc : (s.pool.slots c).dying = false) {ws : List Bool}
    (hws : ws.length ≤ g.windows) :
    Sound g (some (i, tk)) k (s.spawnMapWindows (s.tasks tk).domain (s.threadDomain c) i ws) := by
  rw [Pools.spawnMapWindows]
  refine Sound.mapWindows ht hi _ s (h.begin (i, tk)) ?_ ?_
  · intro w hw
    obtain ⟨m, -, hm⟩ := List.mem_filterMap.1 hw
    obtain ⟨d, hd, rfl⟩ := Option.map_eq_some_iff.1 hm
    obtain ⟨s1, s2, -⟩ := h.space ht htk.cores htk.inUse hd
    refine ⟨rfl, hd, s1, s2, ?_⟩
    intro e he
    cases m with
    | false => cases he
    | true =>
      obtain ⟨v, -, v2, v3, v4, v5⟩ := h.donor hc he
      exact ⟨h.high ht v e v5 v2, taskRefs_pos.2 ⟨v, v4, v2, .inl v3⟩⟩
  · have hlen := List.length_filterMap_le (spawnWindow (s.tasks tk).domain (s.threadDomain c) i) ws
    have := h.none_held h0
    omega

theorem Sound.spawnInto (h : Sound g none (fun _ => 0) s) (hi : i < g.threads) (h0 : (s.pool.slots i).task = none)
    (htk : Joinable g s tk) (hc : (s.pool.slots c).dying = false) (a : SpawnAsk) (hw : a.windows.length ≤ g.windows) :
    Sound g none (fun _ => 0) (s.spawnInto g c tk i a) := by
  obtain ⟨l, hl⟩ := stackFor_pool s.pool g.translating a
  unfold Pools.spawnInto
  cases hst : s.pool.stackFor g.translating a with
  | mk o q =>
    rw [hst] at hl
    dsimp only at hl
    subst hl
    have hu : Sound g none (fun _ => 0) ({ s with pool := { s.pool with stackFree := l } } : Pools) :=
      h.folk ⟨rfl, rfl, fun _ => rfl, fun _ => rfl, fun _ => rfl, fun _ => rfl, fun _ => rfl, fun _ => rfl⟩
    cases o with
    | none => exact (hu.begin (i, tk)).spawnUnwind none
    | some r =>
      obtain ⟨base, owned⟩ := r
      dsimp only
      have hend : ∀ v : Pools, Sound g (some (i, tk)) (fun _ => 0) v → (v.pool.slots i).task = none → Joinable g v tk →
          Sound g none (fun _ => 0) (if (g.translating ∧ a.mapped < a.windows.length) ∨ a.passes = false then
            v.spawnUnwind g tk i (if owned then some base else none) else v.spawnCommit c tk i base owned a.driver) := by
        intro v hv hv0 hvt
        split_ifs
        · exact hv.spawnUnwind _
        · exact hv.spawnUnwind _
        · exact hv.spawnCommit hi hv0 hvt c base owned a.driver
      have hut : Joinable g ({ s with pool := { s.pool with stackFree := l } } : Pools) tk := ⟨htk.inUse, htk.cores⟩
      have hu0 : (({ s with pool := { s.pool with stackFree := l } } : Pools).pool.slots i).task = none := h0
      have huc : (({ s with pool := { s.pool with stackFree := l } } : Pools).pool.slots c).dying = false := hc
      have hdom : (s.tasks tk).domain = (({ s with pool := { s.pool with stackFree := l } } : Pools).tasks tk).domain := rfl
      generalize ({ s with pool := { s.pool with stackFree := l } } : Pools) = u at hu hut hu0 huc hdom ⊢
      by_cases ht : g.translating = true
      · rw [if_pos ht, hdom]
        have hmap := hu.spawnMapWindows ht hi hu0 hut huc (le_trans (List.take_sublist a.mapped a.windows).length_le hw)
        have hd := spawnMapWindows_only (s := u) (i := i) (u.tasks tk).domain (u.threadDomain c)
          (a.windows.take a.mapped)
        exact hend _ hmap (by rw [hd.pool]; exact hu0) ⟨by rw [hd.tasks]; exact hut.inUse, hut.cores⟩
      · rw [if_neg ht]
        exact hend u (hu.begin _) hu0 hut

theorem Sound.spawn (h : Sound g none (fun _ => 0) s) (hk : Kin g none s) (hc : Runs s c) (htk : Joinable g s tk)
    (a : SpawnAsk) (hw : a.windows.length ≤ g.windows) : Sound g none (fun _ => 0) (s.spawn g c tk a) := by
  unfold Pools.spawn
  cases hcl : s.pool.claim with
  | mk o q =>
    cases o with
    | none => exact h
    | some i =>
      have hb := hk.claim hcl
      have hf := claim_folk hcl
      have hi : i < g.threads := lt_of_lt_of_le hb.slot.lt hb.slot.next_le
      have hnone : (q.slots i).task = none := by
        by_cases hex : (q.slots i).state = .exited
        · rw [hf.task]
          exact h.gone i ((hf.state i).symm.trans hex)
        · exact (hb.slot.fresh hex).2.2.2
      exact (h.folk hf).spawnInto hi hnone ⟨htk.inUse, htk.cores⟩ ((hf.dying c).trans hc.alive) a hw

theorem Sound.exitUnmap (h : Sound g (some (c, t)) k s) (ht : (s.pool.slots c).task = some t) :
    Sound g none k (s.exitUnmap g c) := by
  have hdom : s.threadDomain c = (s.tasks t).domain := by
    rw [threadDomain, ht]
    rfl
  rw [Pools.exitUnmap, hdom]
  split_ifs with htr
  · refine h.unmapHolder.folk ?_
    exact modify_folk _ fun y => ⟨rfl, rfl, rfl, rfl, rfl, rfl⟩
  · exact h.flat (by simpa using htr) none

theorem exitUnmap_slot (c j : Nat) : ((s.exitUnmap g c).pool.slots j).task = (s.pool.slots j).task ∧
    ((s.exitUnmap g c).pool.slots j).dying = (s.pool.slots j).dying ∧
    ((s.exitUnmap g c).pool.slots j).state = (s.pool.slots j).state := by
  rw [Pools.exitUnmap]
  split_ifs
  · have hd := unmapHolder_only (g := g) (s := s) (s.threadDomain c) c
    rw [setSlot_slots, hd.pool]
    split_ifs with hj
    · rw [hj]
      exact ⟨rfl, rfl, rfl⟩
    · exact ⟨rfl, rfl, rfl⟩
  · exact ⟨rfl, rfl, rfl⟩

theorem Sound.exitBegin (h : Sound g none (fun _ => 0) s) (hcn : c < g.threads) (hc : Runs s c)
    (ht : (s.pool.slots c).task = some t) : Sound g none (fun _ => 0) (s.exitBegin g c t) := by
  have hs : (s.pool.slots c).state ≠ .exited := by
    rw [hc.running]
    decide
  have hmark := h.mark hcn ht hc.alive hs
  have hslot : ∀ j, (s.setSlot c fun x => { x with dying := true }).pool.slots j =
      if j = c then { s.pool.slots c with dying := true } else s.pool.slots j := setSlot_slots _
  have hun := hmark.exitUnmap (by rw [hslot, if_pos rfl]; exact ht)
  have hu := exitUnmap_slot (g := g) (s := s.setSlot c fun x => { x with dying := true }) c
  rw [Pools.exitBegin]
  generalize (s.setSlot c fun x => { x with dying := true }).exitUnmap g c = u at hun hu
  have hrel := hun.taskRelease (h.joined c t ht).2.1 (h.joined c t ht).1
  have hpool := (taskRelease_kept (g := g) (s := u) t).pool
  generalize u.taskRelease g t = r at hrel hpool
  refine Sound.taskOrphanCreatedBy ?_ _
  have hmod : ∀ j, (r.2.pool.modify c fun x => { x with left := some t, task := if r.1 then none else x.task }).slots j =
      if j = c then { r.2.pool.slots c with left := some t, task := if r.1 then none else (r.2.pool.slots c).task }
      else r.2.pool.slots j := fun j => modify_slots _
  have hdying : (r.2.pool.slots c).dying = true := by
    rw [hpool, (hu c).2.1, hslot, if_pos rfl]
  refine hrel.slots (b := r.2.births) ?_ ?_ ?_
  · intro j
    rw [hmod]
    split_ifs with hj hr
    · exact .inr ⟨rfl, hj ▸ hdying⟩
    · exact .inl (by rw [hj])
    · exact .inl rfl
  · intro j
    rw [hmod]
    split_ifs with hj
    · rw [hj]
    · rw [hj]
    · rfl
  · intro j
    rw [hmod]
    split_ifs with hj hr
    · exact fun _ => rfl
    · exact fun hx => hrel.gone c hx
    · exact hrel.gone j

theorem setTask_tasks (f : TaskRec → TaskRec) (u : Nat) :
    (s.setTask t f).tasks u = if u = t then f (s.tasks t) else s.tasks u := Function.update_apply _ _ _ _

theorem Sound.taskSweepDone (h : Sound g x k s) (t : Nat) : Sound g x k (s.taskSweepDone t) := by
  rw [Pools.taskSweepDone]
  split_ifs
  · exact h
  · have hsame : ∀ u, ((s.setTask t fun x => { x with sweeping := x.sweeping - 1 }).tasks u).domain = (s.tasks u).domain ∧
        ((s.setTask t fun x => { x with sweeping := x.sweeping - 1 }).tasks u).refcount = (s.tasks u).refcount ∧
        ((s.setTask t fun x => { x with sweeping := x.sweeping - 1 }).tasks u).creatorTag = (s.tasks u).creatorTag := by
      intro u
      rw [setTask_tasks]
      split_ifs with hu
      · rw [hu]
        exact ⟨rfl, rfl, rfl⟩
      · exact ⟨rfl, rfl, rfl⟩
    have hrefs : taskRefs g (s.setTask t fun x => { x with sweeping := x.sweeping - 1 }) = taskRefs g s := by
      funext e
      simp only [taskRefs, hsame]
    refine h.record (fun hd => ?_) rfl (fun _ => rfl) (fun _ => rfl) h.gone
      (by rw [hrefs]; exact h.ledger.congr rfl rfl rfl rfl) rfl
      (le_refl _) (h.members t) (fun _ _ => rfl) ?_ (h.held t) (h.made t) (h.kernel t) (fun w _ hw => hw)
      (h.gens t)
    · obtain ⟨d, hd⟩ := Option.ne_none_iff_exists'.1 hd
      exact (h.named t d hd).1
    · intro e he
      exact ⟨(h.named t e he).2.1, (h.named t e he).2.2, fun hlow v hv hve => hv (h.once v t e hlow hve he),
        fun htr hk => h.high htr t e hk he⟩

theorem Sound.exitEnd (h : Sound g none (fun _ => 0) s) (hd : (s.pool.slots c).dying = true) (t : Nat) :
    Sound g none (fun _ => 0) (s.exitEnd c t) := by
  rw [Pools.exitEnd]
  refine Sound.taskSweepDone ?_ t
  have hslot : ∀ j, ((s.setSlot c fun x => { x with task := none, left := none }).pool.retire c).slots j =
      if j = c then { s.pool.slots c with task := none, left := none, state := .exited } else s.pool.slots j := by
    intro j
    rw [retire_slots, setSlot_slots, setSlot_slots, if_pos rfl]
    split_ifs <;> rfl
  refine h.slots (b := s.births) ?_ ?_ ?_
  · intro j
    rw [hslot]
    split_ifs with hj
    · exact .inr ⟨rfl, hj ▸ hd⟩
    · exact .inl rfl
  · intro j
    rw [hslot]
    split_ifs with hj
    · rw [hj]
    · rfl
  · intro j
    rw [hslot]
    split_ifs with hj
    · exact fun _ => rfl
    · exact h.gone j

theorem Sound.sched (h : Sound g none (fun _ => 0) s) {st : ThreadState} (hst : st ≠ .exited) :
    Sound g none (fun _ => 0) (s.setSlot c fun x => { x with state := st }) := by
  have hslot : ∀ j, (s.pool.modify c fun x => { x with state := st }).slots j =
      if j = c then { s.pool.slots c with state := st } else s.pool.slots j := fun j => modify_slots _
  refine h.slots (b := s.births) ?_ ?_ ?_
  · intro j
    rw [hslot]
    split_ifs with hj
    · exact .inl (by rw [hj])
    · exact .inl rfl
  · intro j
    rw [hslot]
    split_ifs with hj
    · rw [hj]
    · rfl
  · intro j
    rw [hslot]
    split_ifs with hj
    · exact fun hk => absurd hk hst
    · exact h.gone j

theorem Sound.step (h : Sound g none (fun _ => 0) s) (hk : Kin g none s) (hs : Step g s s') :
    Sound g none (fun _ => 0) s' := by
  cases hs with
  | spawn c tk a hc hw hm htk =>
    refine h.spawn hk hc ?_ a hw
    rcases htk with ⟨-, ht⟩ | ⟨-, -, ht⟩
    · exact ⟨.inl (h.member_pos ht hc.alive), (h.joined c tk ht).1⟩
    · exact ⟨.inr ht, h.made tk ht⟩
  | create c t a hc ht ht' hr =>
    exact h.taskCreateDeclared hc (lt_of_lt_of_le hc.lt hk.line.next_le) ht ht' hr a
  | drop t ht => exact h.taskDropHold t
  | exitBegin c t hc ht => exact h.exitBegin (lt_of_lt_of_le hc.lt hk.line.next_le) hc ht
  | exitEnd c t hc hs hd ht => exact h.exitEnd hd t
  | sched c st hc hs hst => exact h.sched hst

end Pools

variable {g : Geometry} {s s' : Pools}

theorem boot_tasks (g : Geometry) (t : Nat) : (boot g).tasks t =
    if t < g.cores then { domain := some kdomKernel, refcount := 1 }
    else if t = g.cores then { domain := some (if g.translating then 2 else kdomDefaultUser), refcount := 1 }
    else {} := rfl

theorem boot_rec {t d : Nat} (h : ((boot g).tasks t).domain = some d) : ((boot g).tasks t).refcount = 1 ∧
    (t < g.cores ∧ d = kdomKernel ∨ t = g.cores ∧ d = if g.translating then 2 else kdomDefaultUser) := by
  rw [boot_tasks] at h ⊢
  by_cases h1 : t < g.cores
  · rw [if_pos h1] at h ⊢
    cases h
    exact ⟨rfl, .inl ⟨h1, rfl⟩⟩
  · rw [if_neg h1] at h ⊢
    by_cases h2 : t = g.cores
    · rw [if_pos h2] at h ⊢
      cases h
      exact ⟨rfl, .inr ⟨h2, rfl⟩⟩
    · rw [if_neg h2] at h
      cases h

theorem boot_domain {t d : Nat} (hd : 2 ≤ d) :
    ((boot g).tasks t).domain = some d ↔ t = g.cores ∧ d = 2 ∧ g.translating = true := by
  constructor
  · intro h
    rcases (boot_rec h).2 with ⟨-, rfl⟩ | ⟨h1, h2⟩
    · exact absurd hd (by decide)
    · split_ifs at h2 with ht
      · exact ⟨h1, h2, ht⟩
      · rw [h2] at hd
        exact absurd hd (by decide)
  · rintro ⟨rfl, rfl, ht⟩
    rw [boot_tasks, if_neg (lt_irrefl _), if_pos rfl, if_pos ht]

theorem boot_tag (g : Geometry) (t : Nat) : ((boot g).tasks t).creatorTag = killTagNone := by
  rw [boot_tasks]
  split_ifs <;> rfl

theorem boot_refs (g : Geometry) {d : Nat} (hd : 2 ≤ d) :
    Pools.taskRefs g (boot g) d = if d = 2 ∧ g.translating = true then 1 else 0 := by
  have hroot : ((boot g).tasks g.cores).refcount = 1 := by
    rw [boot_tasks, if_neg (lt_irrefl _), if_pos rfl]
  have hcreators : (Lib.count g.tasks fun t => decide (((boot g).tasks t).domain = some d ∧
      ((boot g).tasks t).creatorTag ≠ killTagNone)) = 0 := by
    refine Lib.count_eq_zero.2 fun t _ => decide_eq_false fun hk => hk.2 (boot_tag g t)
  rw [Pools.taskRefs, hcreators, Nat.add_zero]
  split_ifs with h
  · refine le_antisymm (Lib.count_le_one ?_) (Lib.count_pos.2 ⟨g.cores, g.cores_lt, ?_⟩)
    · intro t _ u _ h1 h2
      have h1' := (boot_domain hd).1 (of_decide_eq_true h1).1
      have h2' := (boot_domain hd).1 (of_decide_eq_true h2).1
      exact h1'.1.trans h2'.1.symm
    · refine decide_eq_true ⟨(boot_domain hd).2 ⟨rfl, h.1, h.2⟩, ?_⟩
      rw [hroot]
      exact one_ne_zero
  · refine Lib.count_eq_zero.2 fun t _ => decide_eq_false fun hk => h ((boot_domain hd).1 hk.1).2

theorem boot_doms (g : Geometry) (d : Nat) : (boot g).doms d =
    if d = kdomKernel ∨ d = kdomDefaultUser then { immortal := true }
    else if d = 2 ∧ g.translating then { refcount := 1, space := true }
    else {} := rfl

theorem boot_doms_high (g : Geometry) {d : Nat} (hd : 2 ≤ d) : (boot g).doms d =
    if d = 2 ∧ g.translating = true then { refcount := 1, space := true } else {} := by
  rw [boot_doms, if_neg]
  simp only [kdomKernel, kdomDefaultUser]
  omega

theorem boot_borrows (g : Geometry) (d : Nat) : ((boot g).doms d).borrowedFrom = none := by
  rw [boot_doms]
  split_ifs <;> rfl

theorem boot_fresh (g : Geometry) : (boot g).domFresh = if g.translating then 1 else 0 := rfl

theorem boot_ledger (g : Geometry) : Pools.Ledger g (Pools.taskRefs g (boot g)) (fun _ => 0) none (boot g) := by
  have hedges : ∀ d, (boot g).edges g d = 0 := fun d =>
    Lib.count_eq_zero.2 fun e _ => decide_eq_false fun hk => by rw [boot_borrows] at hk; cases hk
  have hwins : ∀ d, (boot g).wins d = 0 := fun _ => rfl
  have hused : ∀ d, 2 ≤ d → d < 2 + (boot g).domFresh → d = 2 ∧ g.translating = true := by
    intro d hlow hd
    rw [boot_fresh] at hd
    split_ifs at hd with ht
    · exact ⟨by omega, ht⟩
    · omega
  have hdoms := g.domains_gt
  refine ⟨?_, ?_, ?_, ?_, List.nodup_nil, ?_, ?_, fun d hd => absurd hd (Option.some_ne_none d).symm, ?_, ?_, ?_, ?_⟩
  · intro d hd
    rw [hedges, hwins, boot_refs g hd, boot_doms_high g hd]
    split_ifs <;> rfl
  · intro d
    by_cases hd : d < 2
    · rw [boot_doms, if_pos (by simp only [kdomKernel, kdomDefaultUser]; omega), decide_eq_true hd]
    · rw [boot_doms_high g (by omega), decide_eq_false hd]
      split_ifs <;> rfl
  · intro d hd
    rw [boot_doms, if_pos (by simp only [kdomKernel, kdomDefaultUser]; omega)]
    exact ⟨rfl, rfl⟩
  · intro d
    refine ⟨fun hk => absurd hk List.not_mem_nil, fun hk => ?_⟩
    have h2 := hused d hk.1.low hk.1.high
    have h0 := hk.2.1
    rw [boot_doms_high g hk.1.low, if_pos h2] at h0
    exact absurd h0 one_ne_zero
  · rw [boot_fresh]
    split_ifs <;> omega
  · intro d hd
    have hlow : 2 ≤ d := by omega
    have hnot : ¬(d = 2 ∧ g.translating = true) := by
      rintro ⟨rfl, ht⟩
      rw [boot_fresh, if_pos ht] at hd
      omega
    rw [boot_refs g hlow, boot_doms_high g hlow, if_neg hnot, if_neg hnot]
    exact ⟨rfl, rfl, rfl⟩
  · intro e d he
    rw [boot_borrows] at he
    cases he
  · exact fun w hw => absurd hw List.not_mem_nil
  · intro ht d hd hR
    rw [boot_refs g hd] at hR
    split_ifs at hR with h2
    · rw [boot_doms_high g hd, if_pos h2]
    · omega
  · exact fun _ => ⟨rfl, boot_borrows g⟩

theorem boot_sound (g : Geometry) : Pools.Sound g none (fun _ => 0) (boot g) := by
  have hslot : ∀ i t, ((boot g).pool.slots i).task = some t → i = rootIndex ∧ t = g.cores := by
    intro i t hi
    rw [boot_slots] at hi
    split_ifs at hi with h0
    cases hi
    exact ⟨h0, rfl⟩
  have hroot : ((boot g).pool.slots rootIndex).task = some g.cores ∧ ((boot g).pool.slots rootIndex).dying = false := by
    rw [boot_slots, if_pos rfl]
    exact ⟨rfl, rfl⟩
  have hthreads := g.threads_pos
  refine ⟨boot_ledger g, ?_, ?_, ?_, ?_, ?_, ?_, ?_, ?_, ?_, ?_, ?_, ?_⟩
  · intro t _
    have hlive : (boot g).liveMembers g t = if t = g.cores then 1 else 0 := by
      rw [Pools.liveMembers]
      split_ifs with ht
      · refine le_antisymm (Lib.count_le_one ?_) (Lib.count_pos.2 ⟨rootIndex, g.threads_pos, ?_⟩)
        · intro i _ j _ h1 h2
          exact (hslot i t (of_decide_eq_true h1).1).1.trans (hslot j t (of_decide_eq_true h2).1).1.symm
        · exact decide_eq_true ⟨ht ▸ hroot.1, hroot.2⟩
      · exact Lib.count_eq_zero.2 fun i _ => decide_eq_false fun hk => ht (hslot i t hk.1).2
    rw [hlive, boot_tasks]
    by_cases h1 : t < g.cores
    · rw [if_pos h1, if_neg (by omega), if_pos h1]
    · rw [if_neg h1, if_neg h1]
      split_ifs <;> rfl
  · intro i t hi
    obtain ⟨rfl, rfl⟩ := hslot i t hi
    exact ⟨le_refl _, g.cores_lt, hthreads⟩
  · intro i hi
    rw [boot_slots] at hi
    split_ifs at hi
  · intro t d hd
    have hcores := g.cores_lt
    obtain ⟨h1, h2⟩ := boot_rec hd
    rw [boot_fresh]
    rcases h2 with ⟨h2, rfl⟩ | ⟨h2, rfl⟩
    · exact ⟨by omega, by simp only [kdomKernel]; omega, .inl (by rw [h1]; exact one_ne_zero)⟩
    · refine ⟨by omega, ?_, .inl (by rw [h1]; exact one_ne_zero)⟩
      split_ifs <;> simp [kdomDefaultUser]
  · intro t ht
    rcases ht with ht | ht
    · rw [boot_tasks] at ht ⊢
      split_ifs at ht ⊢ with h1 h2
      · exact Option.some_ne_none _
      · exact Option.some_ne_none _
      · exact Option.some_ne_none _
      · exact absurd rfl ht
    · exact absurd (boot_tag g t) ht
  · exact fun t ht => absurd (boot_tag g t) ht
  · intro t ht
    rw [boot_tasks, if_pos ht]
  · intro t u d hd h1 h2
    exact ((boot_domain hd).1 h1).1.trans ((boot_domain hd).1 h2).1.symm
  · intro ht t d hc hd
    rcases (boot_rec hd).2 with ⟨h2, -⟩ | ⟨-, rfl⟩
    · omega
    · rw [if_pos ht]
  · exact fun w hw => absurd hw List.not_mem_nil
  · exact ⟨fun w hw => absurd hw List.not_mem_nil, fun _ => Nat.zero_le _⟩
  · intro t
    rw [boot_tasks]
    split_ifs <;> rfl

theorem Reachable.sound (h : Reachable g s) : Pools.Sound g none (fun _ => 0) s := by
  induction h with
  | boot => exact boot_sound g
  | step hs hstep ih => exact ih.step hs.kin.1 hstep

theorem Reachable.run (h : Reachable g s) (hr : Relation.ReflTransGen (Pools.Step g) s s') : Reachable g s' := by
  induction hr with
  | refl => exact h
  | tail _ hstep ih => exact ih.step hstep

theorem Pools.Sound.live_iff {t d : Nat} (h : Pools.Sound g none (fun _ => 0) s) (hd : 2 ≤ d) :
    (s.tasks t).domain = some d ∧ (s.tasks t).refcount ≠ 0 ↔ (s.tasks t).domain = some d ∧ 0 < s.liveMembers g t := by
  refine and_congr_right fun hn => ?_
  have hcores : ¬t < g.cores := by
    intro hlt
    cases hn.symm.trans (h.kernel t hlt)
    exact absurd hd (by decide)
  rw [h.members t (h.named t d hn).1, if_neg hcores]
  omega

/-- Task and domain lifetimes. A domain that can be freed is held once for each task of it with a live member, once for
each hold of a creator on such a task, once for each domain that borrows from it and once for each memory window over its
reservations; it is free exactly when it was claimed before and nothing holds it; and a handle of a task record resolves
to nothing from the first time the record is freed until it has been freed 65536 times. -/
theorem lifetime_exact (h : Reachable g s) :
    (∀ d, (s.doms d).immortal = false → (s.doms d).refcount =
        (Lib.count g.tasks fun t => decide ((s.tasks t).domain = some d ∧ 0 < s.liveMembers g t)) +
        (Lib.count g.tasks fun t => decide ((s.tasks t).domain = some d ∧ (s.tasks t).creatorTag ≠ killTagNone)) +
        s.edges g d + s.wins d) ∧
    (∀ d, (s.doms d).immortal = false → (d ∈ s.domFree ↔ Pools.Used s d ∧ (s.doms d).refcount = 0)) ∧
    s.domFree.Nodup ∧
    (∀ s', Relation.ReflTransGen (Pools.Step g) s s' → ∀ t, (s.tasks t).frees < (s'.tasks t).frees →
      (s'.tasks t).frees < (s.tasks t).frees + 65536 → s'.taskResolve g t (s.tasks t).gen = none) := by
  have hsound := h.sound
  have hlow : ∀ {d}, (s.doms d).immortal = false → 2 ≤ d := by
    intro d hd
    rw [hsound.ledger.immortal] at hd
    have := of_decide_eq_false hd
    omega
  refine ⟨?_, ?_, hsound.ledger.free_nodup, ?_⟩
  · intro d hd
    rw [hsound.ledger.exact d (hlow hd), Pools.taskRefs]
    have hlive : (Lib.count g.tasks fun t => decide ((s.tasks t).domain = some d ∧ (s.tasks t).refcount ≠ 0)) =
        Lib.count g.tasks fun t => decide ((s.tasks t).domain = some d ∧ 0 < s.liveMembers g t) :=
      Lib.count_congr fun t _ => decide_eq_decide.2 (hsound.live_iff (hlow hd))
    rw [hlive, Nat.add_zero]
  · intro d _
    rw [hsound.ledger.free d]
    exact ⟨fun k => ⟨k.1, k.2.1⟩, fun k => ⟨k.1, k.2, (Option.some_ne_none d).symm⟩⟩
  · intro s' hs' t h1 h2
    have hr' := h.run hs'
    rw [Pools.taskResolve, if_neg]
    rintro ⟨-, hg, -⟩
    rw [hsound.gens t, hr'.sound.gens t] at hg
    have hnat := congrArg BitVec.toNat hg
    rw [BitVec.toNat_ofNat, BitVec.toNat_ofNat] at hnat
    omega

/-- Root has created a task and spawned a thread into it, with a window over memory of its own. -/
def windowLent : Pools :=
  (rootRuns.taskCreateDeclared smallBoard 2 0 {} (some 2)).spawn smallBoard 0 2
    { into := some 2, block := some 7, windows := [true], mapped := 1 }

theorem windowLent_reachable : Reachable smallBoard windowLent := by
  have hcreate : Reachable smallBoard (rootRuns.taskCreateDeclared smallBoard 2 0 {} (some 2)) :=
    rootRuns_reachable.step (.create _ 0 2 {} ⟨by decide, by decide, by decide⟩ (by decide) (by decide) (by decide))
  exact hcreate.step (.spawn _ 0 2 { into := some 2, block := some 7, windows := [true], mapped := 1 }
    ⟨by decide, by decide, by decide⟩ (by decide) (by decide) (.inr ⟨rfl, by decide, by decide⟩))

theorem lifetime_exact_windowLent :
    (windowLent.doms 2).refcount = 2 ∧ windowLent.wins 2 = 1 ∧ windowLent.liveMembers smallBoard 1 = 1 ∧
      (2 ∈ windowLent.domFree ↔ Pools.Used windowLent 2 ∧ (windowLent.doms 2).refcount = 0) :=
  have h := lifetime_exact windowLent_reachable
  ⟨(h.1 2 (by decide)).trans (by decide), by decide, by decide, h.2.1 2 (by decide)⟩

/-- Tasks, creators and borrowers alone are not all that holds a domain: a window is over root's. -/
theorem window_holds_domain : Reachable smallBoard windowLent ∧ (windowLent.doms 2).immortal = false ∧
    (windowLent.doms 2).refcount ≠
      (Lib.count smallBoard.tasks fun t =>
        decide ((windowLent.tasks t).domain = some 2 ∧ 0 < windowLent.liveMembers smallBoard t)) +
      (Lib.count smallBoard.tasks fun t =>
        decide ((windowLent.tasks t).domain = some 2 ∧ (windowLent.tasks t).creatorTag ≠ killTagNone)) +
      windowLent.edges smallBoard 2 :=
  ⟨windowLent_reachable, by decide, by decide⟩

end Life
end KickOS
