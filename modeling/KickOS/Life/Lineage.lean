import KickOS.Life.Links

/-! Who may cancel whom: the tags of a slot name its own occupant. -/

namespace KickOS
namespace Life
open Function (update update_apply update_of_ne update_self)

namespace Pools
open ThreadPool

variable {g : Geometry} {s s' : Pools} {t p c i : Nat}

/-- The holds of the creators: a task is on the list of the slot its creator's tag names, and that is the creator. The
occupant of slot `x` is on its way out. -/
structure Held (g : Geometry) (x : Option Nat) (s : Pools) : Prop where
  nodup : ∀ p, (s.pool.created p).Nodup
  mem : ∀ p t, t ∈ s.pool.created p ↔ (s.tasks t).creatorTag = p + 1
  lt : ∀ t, (s.tasks t).creatorTag ≠ killTagNone → t < g.tasks
  creator : ∀ t p, (s.tasks t).creatorTag = p + 1 → p < s.pool.next ∧ (s.pool.slots p).state ≠ .exited ∧
    (x ≠ some p → (s.pool.slots p).dying = false) ∧ (s.tasks t).createdBy = (s.pool.slots p).stamp

structure Kin (g : Geometry) (x : Option Nat) (s : Pools) : Prop where
  line : Lineage g.threads none s.pool
  held : Held g x s

variable {x : Option Nat}

theorem Held.congr (h : Held g x s) (hc : s'.pool.created = s.pool.created)
    (ht : ∀ t, (s'.tasks t).creatorTag = (s.tasks t).creatorTag)
    (hb : ∀ t, (s'.tasks t).createdBy = (s.tasks t).createdBy)
    (hp : ∀ p, p < s.pool.next → (s.pool.slots p).state ≠ .exited → (∃ t, (s.tasks t).creatorTag = p + 1) →
      p < s'.pool.next ∧ (s'.pool.slots p).state ≠ .exited ∧ (s'.pool.slots p).dying = (s.pool.slots p).dying ∧
        (s'.pool.slots p).stamp = (s.pool.slots p).stamp) : Held g x s' where
  nodup p := hc ▸ h.nodup p
  mem p t := by
    rw [hc, ht]
    exact h.mem p t
  lt t h0 := h.lt t (ht t ▸ h0)
  creator t p hp' := by
    rw [ht] at hp'
    obtain ⟨h1, h2, h3, h4⟩ := h.creator t p hp'
    obtain ⟨k1, k2, k3, k4⟩ := hp p h1 h2 ⟨t, hp'⟩
    exact ⟨k1, k2, fun hx => k3.trans (h3 hx), by rw [hb, h4, k4]⟩

theorem Held.tag_le (h : Held g x s) (hl : Lineage g.threads none s.pool) (t : Nat) :
    (s.tasks t).creatorTag ≤ g.threads := by
  have hn := hl.next_le
  rcases Nat.eq_zero_or_eq_succ_pred (s.tasks t).creatorTag with h0 | h1
  · omega
  · have := (h.creator t _ h1).1
    omega

theorem Held.domOnly (h : Held g x s) (hd : DomOnly s s') : Held g x s' := by
  refine h.congr (by rw [hd.pool]) (fun t => by rw [hd.tasks]) (fun t => by rw [hd.tasks]) ?_
  intro p h1 h2 _
  rw [hd.pool]
  exact ⟨h1, h2, rfl, rfl⟩

theorem Kin.domOnly (h : Kin g x s) (hd : DomOnly s s') : Kin g x s' :=
  ⟨hd.pool ▸ h.line, h.held.domOnly hd⟩

theorem Held.folk (h : Held g x s) {q : ThreadPool} (hf : SameFolk s.pool q)
    (hn : ∀ p, p < s.pool.next → (s.pool.slots p).state ≠ .exited → p < q.next) : Held g x { s with pool := q } := by
  refine h.congr hf.created (fun _ => rfl) (fun _ => rfl) ?_
  intro p h1 h2 _
  exact ⟨hn p h1 h2, by rw [hf.state]; exact h2, hf.dying p, hf.stamp p⟩

theorem setSlot_slots (f : Tcb → Tcb) (j : Nat) : (s.setSlot i f).pool.slots j =
    if j = i then f (s.pool.slots i) else s.pool.slots j := modify_slots f

theorem Kin.setSlot (h : Kin g x s) (hi : i < s.pool.next) (hs : (s.pool.slots i).state ≠ .exited) {f : Tcb → Tcb}
    (h1 : (f (s.pool.slots i)).spawnerTag = (s.pool.slots i).spawnerTag)
    (h2 : (f (s.pool.slots i)).children = (s.pool.slots i).children)
    (h3 : (f (s.pool.slots i)).stamp = (s.pool.slots i).stamp)
    (h4 : (f (s.pool.slots i)).spawnedBy = (s.pool.slots i).spawnedBy)
    (h5 : (∃ t, (s.tasks t).creatorTag = i + 1) →
      (f (s.pool.slots i)).state ≠ .exited ∧ (f (s.pool.slots i)).dying = (s.pool.slots i).dying) : Kin g x (s.setSlot i f) := by
  refine ⟨h.line.modify hi hs h1 h2 h3 h4, h.held.congr rfl (fun _ => rfl) (fun _ => rfl) ?_⟩
  intro p k1 k2 k4
  refine ⟨k1, ?_⟩
  rw [setSlot_slots]
  split_ifs with hp
  · subst hp
    exact ⟨(h5 k4).1, (h5 k4).2, h3⟩
  · exact ⟨k2, rfl, rfl⟩

theorem addMember_slot (t : Nat) (x : Tcb) : (addMember t x).spawnerTag = x.spawnerTag ∧
    (addMember t x).children = x.children ∧ (addMember t x).stamp = x.stamp ∧ (addMember t x).spawnedBy = x.spawnedBy ∧
    (addMember t x).dying = x.dying ∧ (x.state = .exited → (addMember t x).state = .exited) ∧
    ((addMember t x).state = .exited → x.state = .exited) := by
  rw [addMember]
  split_ifs with h
  · exact ⟨rfl, rfl, rfl, rfl, rfl, fun he => absurd (h.2.symm.trans he) (by decide), fun he => absurd he (by decide)⟩
  · exact ⟨rfl, rfl, rfl, rfl, rfl, id, id⟩

theorem Kin.addMembers (h : Kin g x s) (t : Nat) : Kin g x (s.addMembers t) := by
  have hslot : ∀ j, (s.addMembers t).pool.slots j = addMember t (s.pool.slots j) := fun _ => rfl
  refine ⟨h.line.congr rfl rfl rfl ?_ ?_ ?_ ?_ ?_ ?_, h.held.congr rfl (fun _ => rfl) (fun _ => rfl) ?_⟩
  · intro j
    rw [hslot, (addMember_slot t _).1]
  · intro j
    rw [hslot, (addMember_slot t _).2.1]
  · intro j
    rw [hslot, (addMember_slot t _).2.2.1]
  · intro j
    rw [hslot, (addMember_slot t _).2.2.2.1]
  · intro j hj'
    rw [hslot, addMember, if_neg]
    · exact ⟨rfl, rfl⟩
    · rw [(h.line.blank j hj').2.2.2]
      exact fun he => absurd he.1 (Option.some_ne_none t).symm
  · intro j hj'
    rw [hslot, (h.line.listed j hj').2.2.1]
    exact (addMember_slot t _).2.2.2.2.2.1 (h.line.listed j hj').2.2.1
  · intro p k1 k2 _
    rw [hslot, (addMember_slot t _).2.2.1, (addMember_slot t _).2.2.2.2.1]
    exact ⟨k1, fun he => k2 ((addMember_slot t _).2.2.2.2.2.2 he), rfl, rfl⟩

theorem Kin.cut (h : Kin g x s) (ht : (s.tasks t).creatorTag = p + 1) {r : TaskRec} (hx : r.creatorTag = killTagNone)
    (hpool : s'.pool = (s.cutCreated p t).pool) (htasks : s'.tasks = update s.tasks t r) : Kin g x s' := by
  have hslots : s'.pool.slots = s.pool.slots := by rw [hpool]; rfl
  have hnext : s'.pool.next = s.pool.next := by rw [hpool]; rfl
  have hcreated : s'.pool.created = update s.pool.created p ((s.pool.created p).erase t) := by rw [hpool]; rfl
  refine ⟨h.line.congr (by rw [hpool]; rfl) hnext (by rw [hpool]; rfl)
    (fun j => by rw [hslots]) (fun j => by rw [hslots]) (fun j => by rw [hslots]) (fun j => by rw [hslots])
    (fun j _ => by rw [hslots]; exact ⟨rfl, rfl⟩) (fun j _ => by rw [hslots]), ?_, ?_, ?_, ?_⟩
  · intro q
    rw [hcreated, update_apply]
    split_ifs with hq
    · exact (h.held.nodup p).erase t
    · exact h.held.nodup q
  · intro q u
    rw [hcreated, htasks, update_apply, update_apply]
    by_cases hut : u = t
    · subst hut
      rw [if_pos rfl, hx]
      have hnone : ¬ killTagNone = q + 1 := (Nat.succ_ne_zero q).symm
      split_ifs with hq
      · rw [(h.held.nodup p).mem_erase_iff]
        simp [hnone]
      · rw [h.held.mem q u, ht]
        simp only [hnone, iff_false]
        omega
    · rw [if_neg hut]
      split_ifs with hq
      · rw [(h.held.nodup p).mem_erase_iff, h.held.mem p u, hq]
        simp [hut]
      · exact h.held.mem q u
  · intro u hu
    rw [htasks, update_apply] at hu
    split_ifs at hu with hut
    · exact absurd hx hu
    · exact h.held.lt u hu
  · intro u q hu
    rw [htasks, update_apply] at hu
    split_ifs at hu with hut
    · rw [hx] at hu
      exact absurd hu (Nat.succ_ne_zero q).symm
    · rw [hnext, hslots, htasks, update_of_ne hut]
      exact h.held.creator u q hu

theorem dropped_tag (x : TaskRec) : (dropped x).creatorTag = killTagNone := by
  rw [dropped]
  split_ifs <;> rfl

theorem Kin.taskDropHold (h : Kin g x s) (t : Nat) : Kin g x (s.taskDropHold g t) := by
  by_cases h0 : (s.tasks t).creatorTag = killTagNone
  · rw [taskDropHold_none h0]
    exact h
  · obtain ⟨f1, -, f3⟩ := taskDropHold_frame (g := g) h0
    obtain ⟨p, hp⟩ := Nat.exists_eq_succ_of_ne_zero h0
    have hle := h.held.tag_le h.line t
    have hcount : s.pool.count = g.threads := h.line.count
    refine (h.addMembers t).cut hp (dropped_tag _) ?_ f3
    rw [f1, unhold]
    rw [if_pos (show ((s.addMembers t).tasks t).creatorTag ≤ (s.addMembers t).pool.count from hcount ▸ hle)]
    show ((s.addMembers t).cutCreated ((s.tasks t).creatorTag - 1) t).pool = _
    rw [hp]
    rfl

theorem created_drop (h : Kin g x s) {rest : List Nat} (hp : s.pool.created p = t :: rest) :
    (s.taskDropHold g t).pool.created p = rest := by
  have ht : (s.tasks t).creatorTag = p + 1 := (h.held.mem p t).1 (by rw [hp]; exact List.mem_cons_self)
  have hle := h.held.tag_le h.line t
  have hcount : s.pool.count = g.threads := h.line.count
  obtain ⟨f1, -, -⟩ := taskDropHold_frame (g := g) (s := s) (t := t) (by rw [ht]; exact Nat.succ_ne_zero p)
  rw [f1, unhold, if_pos (show ((s.addMembers t).tasks t).creatorTag ≤ (s.addMembers t).pool.count from hcount ▸ hle)]
  show (update s.pool.created ((s.tasks t).creatorTag - 1) _) p = rest
  rw [ht, Nat.add_sub_cancel, update_self]
  show (s.pool.created ((s.tasks t).creatorTag - 1)).erase t = rest
  rw [ht, Nat.add_sub_cancel, hp, List.erase_cons_head]

theorem Kin.orphanLoop : ∀ (fuel : Nat) (s : Pools), Kin g x s → (s.pool.created p).length < fuel →
    Kin g x (orphanLoop g fuel s p) ∧ (orphanLoop g fuel s p).pool.created p = []
  | 0, _, _, hlt => absurd hlt (Nat.not_lt_zero _)
  | fuel + 1, s, h, hlt => by
    rw [Pools.orphanLoop]
    cases hp : s.pool.created p with
    | nil => exact ⟨h, hp⟩
    | cons t rest =>
      refine Kin.orphanLoop fuel _ (h.taskDropHold t) ?_
      rw [created_drop h hp]
      rw [hp, List.length_cons] at hlt
      omega

theorem Held.length_le (h : Held g x s) (p : Nat) : (s.pool.created p).length ≤ g.tasks := by
  have hsub : (s.pool.created p).toFinset ⊆ Finset.range g.tasks := by
    intro t ht
    rw [Finset.mem_range]
    exact h.lt t (by rw [(h.mem p t).1 (List.mem_toFinset.1 ht)]; exact Nat.succ_ne_zero p)
  have hcard := Finset.card_le_card hsub
  rwa [List.toFinset_card_of_nodup (h.nodup p), Finset.card_range] at hcard

theorem Kin.taskOrphanCreatedBy (h : Kin g (some c) s) (hc : c < g.threads) :
    Kin g none (s.taskOrphanCreatedBy g (killTagForIndex c)) ∧
      ∀ t, ((s.taskOrphanCreatedBy g (killTagForIndex c)).tasks t).creatorTag ≠ c + 1 := by
  have hcount : s.pool.count = g.threads := h.line.count
  rw [Pools.taskOrphanCreatedBy, killTag_eq hc g.threads_le, if_neg fun hf => by
    rcases foreign_iff.1 hf with h0 | h0
    · exact absurd h0 (Nat.succ_ne_zero c)
    · omega]
  rw [Nat.add_sub_cancel]
  obtain ⟨hk, hnil⟩ := Kin.orphanLoop (g.tasks + 1) s h (Nat.lt_succ_of_le (h.held.length_le c))
  generalize s.orphanLoop g (g.tasks + 1) c = u at hk hnil
  have hnone : ∀ t, (u.tasks t).creatorTag ≠ c + 1 := by
    intro t ht
    have := (hk.held.mem c t).2 ht
    rw [hnil] at this
    exact absurd this List.not_mem_nil
  refine ⟨⟨hk.line, hk.held.nodup, hk.held.mem, hk.held.lt, ?_⟩, hnone⟩
  intro t q hq
  obtain ⟨k1, k2, k3, k4⟩ := hk.held.creator t q hq
  refine ⟨k1, k2, fun _ => k3 ?_, k4⟩
  intro he
  cases he
  exact hnone t hq

/-- Functions on tasks that leave the pool, the tags of the creators and the creators. -/
structure TagsKept (s s' : Pools) : Prop where
  pool : s'.pool = s.pool
  tag : ∀ t, (s'.tasks t).creatorTag = (s.tasks t).creatorTag
  by_ : ∀ t, (s'.tasks t).createdBy = (s.tasks t).createdBy

theorem Kin.tagsKept (h : Kin g x s) (hk : TagsKept s s') : Kin g x s' := by
  refine ⟨hk.pool ▸ h.line, h.held.congr (by rw [hk.pool]) hk.tag hk.by_ ?_⟩
  intro p k1 k2 _
  rw [hk.pool]
  exact ⟨k1, k2, rfl, rfl⟩

theorem setTask_kept (f : TaskRec → TaskRec) (h1 : (f (s.tasks t)).creatorTag = (s.tasks t).creatorTag)
    (h2 : (f (s.tasks t)).createdBy = (s.tasks t).createdBy) : TagsKept s (s.setTask t f) := by
  refine ⟨rfl, fun u => ?_, fun u => ?_⟩
  · show (update s.tasks t (f (s.tasks t)) u).creatorTag = _
    rw [update_apply]
    split_ifs with hu
    · rw [h1, hu]
    · rfl
  · show (update s.tasks t (f (s.tasks t)) u).createdBy = _
    rw [update_apply]
    split_ifs with hu
    · rw [h2, hu]
    · rfl

theorem TagsKept.trans {u : Pools} (h : TagsKept s u) (h' : TagsKept u s') : TagsKept s s' :=
  ⟨h'.pool.trans h.pool, fun t => (h'.tag t).trans (h.tag t), fun t => (h'.by_ t).trans (h.by_ t)⟩

theorem DomOnly.kept (h : DomOnly s s') : TagsKept s s' :=
  ⟨h.pool, fun t => by rw [h.tasks], fun t => by rw [h.tasks]⟩

theorem freeTask_kept (h : (s.tasks t).creatorTag = killTagNone) : TagsKept s (s.freeTask g t) := by
  obtain ⟨f1, -, f3⟩ := freeTask_frame (g := g) (s := s) t
  refine ⟨f1, fun u => ?_, fun u => ?_⟩
  · rw [f3, update_apply]
    split_ifs with hu
    · rw [hu, h]
    · rfl
  · rw [f3, update_apply]
    split_ifs with hu
    · rw [hu]
    · rfl

theorem taskRelease_kept (t : Nat) : TagsKept s (s.taskRelease g t).2 := by
  have hset : TagsKept s (s.setTask t fun x => { x with refcount := x.refcount - 1, sweeping := (x.sweeping + 1) % 256 }) :=
    setTask_kept _ rfl rfl
  rw [taskRelease]
  dsimp only
  split_ifs with h1 h2 h3
  · exact ⟨rfl, fun _ => rfl, fun _ => rfl⟩
  · exact hset
  · exact hset.trans (domainRelease_only _).kept
  · exact hset.trans (freeTask_kept (not_not.1 h3))

theorem taskRef_kept (t : Nat) : TagsKept s (s.taskRef t) := by
  rw [taskRef]
  split_ifs
  · exact (domainRef_only _).kept.trans (setTask_kept _ rfl rfl)
  · exact setTask_kept _ rfl rfl

theorem taskSweepDone_kept (t : Nat) : TagsKept s (s.taskSweepDone t) := by
  rw [taskSweepDone]
  split_ifs
  · exact ⟨rfl, fun _ => rfl, fun _ => rfl⟩
  · exact setTask_kept _ rfl rfl

theorem stackFor_pool (q : ThreadPool) (translating : Bool) (a : SpawnAsk) :
    ∃ l, (q.stackFor translating a).2 = { q with stackFree := l } := by
  rw [ThreadPool.stackFor]
  split
  · exact ⟨_, rfl⟩
  · split_ifs
    · exact ⟨_, rfl⟩
    · split
      · exact ⟨_, rfl⟩
      · exact ⟨_, rfl⟩

theorem Claimed.stack {n : Nat} {q : ThreadPool} (h : Claimed n i q) (l : List Nat) :
    Claimed n i { q with stackFree := l } :=
  ⟨{ h with }, h.lt, h.childless, h.unnamed, h.again,
    h.fresh⟩

/-- Past the claim of slot `i`: the slot is nobody's, and no task names it as its creator. -/
structure Between (g : Geometry) (i : Nat) (s : Pools) : Prop where
  slot : Claimed g.threads i s.pool
  held : Held g none s
  free : ∀ t, (s.tasks t).creatorTag ≠ i + 1

theorem claim_next {q r : ThreadPool} (hc : q.claim = (some i, r)) : q.next ≤ r.next := by
  rw [ThreadPool.claim] at hc
  cases hr : q.reclaimable with
  | nil =>
    rw [hr] at hc
    dsimp only at hc
    split_ifs at hc <;> cases hc
    exact Nat.le_succ _
  | cons u rest =>
    rw [hr] at hc
    cases hc
    exact le_of_eq (reclaim_lists (p := { q with reclaimable := rest }) _).next.symm

theorem Kin.claim (h : Kin g none s) {q : ThreadPool} (hc : s.pool.claim = (some i, q)) :
    Between g i { s with pool := q } := by
  have hcl := h.line.claim hc
  have hf := claim_folk hc
  have hnext := claim_next hc
  refine ⟨hcl, h.held.folk hf fun p hp _ => by omega, ?_⟩
  intro t ht
  obtain ⟨k1, k2, -, -⟩ := h.held.creator t i ht
  rw [ThreadPool.claim] at hc
  cases hr : s.pool.reclaimable with
  | nil =>
    rw [hr] at hc
    dsimp only at hc
    split_ifs at hc <;> cases hc
    exact Nat.lt_irrefl _ k1
  | cons u rest =>
    rw [hr] at hc
    cases hc
    exact k2 (h.line.listed i (by rw [hr]; exact List.mem_cons_self)).2.2.1

theorem Between.domOnly (h : Between g i s) (hd : DomOnly s s') : Between g i s' :=
  ⟨hd.pool ▸ h.slot, h.held.domOnly hd, fun t => by rw [hd.tasks]; exact h.free t⟩

theorem Between.stack (h : Between g i s) (l : List Nat) :
    Between g i { s with pool := { s.pool with stackFree := l } } :=
  ⟨Claimed.stack h.slot l, h.held.congr rfl (fun _ => rfl) (fun _ => rfl) fun _ k1 k2 _ => ⟨k1, k2, rfl, rfl⟩, h.free⟩

theorem Between.release (h : Between g i s) : Kin g none { s with pool := s.pool.release i } := by
  refine ⟨h.slot.release, ?_⟩
  have hf := release_folk (p := s.pool) i
  refine h.held.congr hf.created (fun _ => rfl) (fun _ => rfl) ?_
  intro p k1 k2 ⟨t, ht⟩
  have hpi : p ≠ i := by
    rintro rfl
    exact h.free t ht
  refine ⟨?_, by rw [hf.state]; exact k2, hf.dying p, hf.stamp p⟩
  show p < (s.pool.release i).next
  rw [ThreadPool.release]
  split_ifs with hex hnext
  · exact (childLink_lists (p := s.pool.genUnstep i) _ i).next.symm ▸ k1
  · show p < s.pool.next - 1
    omega
  · exact k1

theorem Between.spawnUnwind (h : Between g i s) (tk : Nat) (block : Option Nat) :
    Kin g none (s.spawnUnwind g tk i block) := by
  unfold Pools.spawnUnwind
  split_ifs
  · exact (h.domOnly (unmapHolder_only _ i)).release
  · cases block with
    | none => exact h.release
    | some b => exact (h.stack (b :: s.pool.stackFree)).release

theorem Between.spawnCommit (h : Between g i s) (hb : s.births ≠ 0) (hc : c < s.pool.next) (hci : c ≠ i)
    (tk base : Nat) (owned driver : Bool) : Kin g none (s.spawnCommit c tk i base owned driver) := by
  rw [Pools.spawnCommit]
  refine Kin.tagsKept ?_ (taskRef_kept tk)
  refine ⟨h.slot.create g.threads_le hc hci rfl rfl rfl hb, ?_⟩
  generalize ({ state := _, spawnerTag := killTagForIndex c, task := some tk, kstackOwned := owned, stackBase := base,
                stamp := s.births, spawnedBy := (s.pool.slots c).stamp } : Tcb) = r
  have hf := childLink_folk (p := s.pool.modify i fun _ => r) r.spawnerTag i
  have hl := childLink_lists (p := s.pool.modify i fun _ => r) r.spawnerTag i
  refine h.held.congr hf.created (fun _ => rfl) (fun _ => rfl) ?_
  intro p k1 k2 ⟨t, ht⟩
  have hpi : p ≠ i := by
    rintro rfl
    exact h.free t ht
  have hslot : (s.pool.modify i fun _ => r).slots p = s.pool.slots p := by rw [modify_slots, if_neg hpi]
  refine ⟨?_, ?_, ?_, ?_⟩
  · show p < ((s.pool.modify i fun _ => r).childLink r.spawnerTag i).next
    rw [hl.next]
    exact k1
  · exact fun he => k2 (hslot ▸ (hf.state p).symm.trans he)
  · exact (hf.dying p).trans (by rw [hslot])
  · exact (hf.stamp p).trans (by rw [hslot])

theorem Between.spawnInto (h : Between g i s) (hz : s.births ≠ 0) (hc : c < s.pool.next) (hci : c ≠ i) (tk : Nat) (a : SpawnAsk) :
    Kin g none (s.spawnInto g c tk i a) := by
  obtain ⟨l, hl⟩ := stackFor_pool s.pool g.translating a
  unfold Pools.spawnInto
  cases hst : s.pool.stackFor g.translating a with
  | mk o q =>
    rw [hst] at hl
    dsimp only at hl
    subst hl
    have hb := h.stack l
    cases o with
    | none => exact hb.spawnUnwind tk none
    | some r =>
      obtain ⟨base, owned⟩ := r
      dsimp only
      have hmap : ∀ u : Pools, Between g i u → u.pool.next = s.pool.next → u.births = s.births →
          Kin g none (if (g.translating ∧ a.mapped < a.windows.length) ∨ a.passes = false then
            u.spawnUnwind g tk i (if owned then some base else none) else u.spawnCommit c tk i base owned a.driver) := by
        intro u hu hn hbi
        split_ifs
        · exact hu.spawnUnwind tk _
        · exact hu.spawnUnwind tk _
        · exact hu.spawnCommit (hbi ▸ hz) (hn ▸ hc) hci tk base owned a.driver
      generalize hu : ({ s with pool := { s.pool with stackFree := l } } : Pools) = u at hb ⊢
      have hn : u.pool.next = s.pool.next := by rw [← hu]
      have hbi : u.births = s.births := by rw [← hu]
      by_cases ht : g.translating = true
      · rw [if_pos ht]
        have hd := spawnMapWindows_only (s := u) (i := i) (s.tasks tk).domain (u.threadDomain c)
          (a.windows.take a.mapped)
        exact hmap _ (hb.domOnly hd) (by rw [hd.pool]; exact hn) (hd.births.trans hbi)
      · rw [if_neg ht]
        exact hmap u hb hn hbi

theorem Kin.spawn (h : Kin g none s) (hz : s.births ≠ 0) (hc : Runs s c) (tk : Nat) (a : SpawnAsk) :
    Kin g none (s.spawn g c tk a) := by
  unfold Pools.spawn
  cases hcl : s.pool.claim with
  | mk o q =>
    cases o with
    | none => exact h
    | some i =>
      have hb := h.claim hcl
      have hf := claim_folk hcl
      have hci : c ≠ i := by
        rintro rfl
        by_cases hex : (s.pool.slots c).state = .exited
        · exact absurd (hc.running.symm.trans hex) (by decide)
        · have hnext := (hb.slot.fresh (by rw [hf.state]; exact hex)).2.2.1
          rw [hf.state, hc.running] at hnext
          exact absurd hnext (by decide)
      have hcn : c < q.next := lt_of_lt_of_le hc.lt (claim_next hcl)
      exact hb.spawnInto hz hcn hci tk a

theorem Kin.taskHold (h : Kin g none s) (hc : Runs s c) (ht : t < g.tasks) (h0 : (s.tasks t).creatorTag = killTagNone)
    (hby : (s.tasks t).createdBy = (s.pool.slots c).stamp) (d : Nat) :
    Kin g none (s.taskHold t d (killTagForIndex c)) := by
  have hcn : c < g.threads := lt_of_lt_of_le hc.lt h.line.next_le
  have hcount : s.pool.count = g.threads := h.line.count
  have hn := g.threads_le
  have hd := domainRef_only (s := s) (some d)
  have htag : killTagForIndex c = c + 1 := killTag_eq hcn hn
  rw [Pools.taskHold, htag]
  rw [if_neg fun hf => by
    rcases foreign_iff.1 hf with hz | hz
    · exact absurd hz (Nat.succ_ne_zero c)
    · have hz' : (s.domainRef (some d)).pool.count < c + 1 := hz
      rw [hd.pool] at hz'
      omega, Nat.add_sub_cancel, Nat.mod_eq_of_lt (show c + 1 < 256 by omega)]
  have hk := h.domOnly hd
  have hrun : Runs (s.domainRef (some d)) c := ⟨hd.pool ▸ hc.lt, hd.pool ▸ hc.running, hd.pool ▸ hc.alive⟩
  have h0' : ((s.domainRef (some d)).tasks t).creatorTag = killTagNone := by rw [hd.tasks]; exact h0
  have hby' : ((s.domainRef (some d)).tasks t).createdBy = ((s.domainRef (some d)).pool.slots c).stamp := by
    rw [hd.tasks, hd.pool]
    exact hby
  generalize s.domainRef (some d) = u at hk hrun h0' hby'
  have htask : ∀ v, (((u.setTask t fun x => { x with creatorTag := c + 1 }).addCreated c t).tasks v) =
      if v = t then { u.tasks t with creatorTag := c + 1 } else u.tasks v := fun v => update_apply _ _ _ _
  have hcr : ∀ q, (((u.setTask t fun x => { x with creatorTag := c + 1 }).addCreated c t).pool.created q) =
      if q = c then t :: u.pool.created c else u.pool.created q := fun q => update_apply _ _ _ _
  have hfree : ∀ q, t ∉ u.pool.created q := fun q hm => by
    have := (hk.held.mem q t).1 hm
    rw [h0'] at this
    exact absurd this (Nat.succ_ne_zero q).symm
  refine ⟨hk.line.congr rfl rfl rfl (fun _ => rfl) (fun _ => rfl) (fun _ => rfl) (fun _ => rfl)
    (fun _ _ => ⟨rfl, rfl⟩) (fun _ _ => rfl), ?_, ?_, ?_, ?_⟩
  · intro q
    rw [hcr]
    split_ifs
    · exact List.nodup_cons.2 ⟨hfree c, hk.held.nodup c⟩
    · exact hk.held.nodup q
  · intro q v
    rw [hcr, htask]
    by_cases hv : v = t
    · subst hv
      rw [if_pos rfl]
      split_ifs with hq
      · simp [hq]
      · simp only [hfree q, false_iff]
        omega
    · rw [if_neg hv]
      split_ifs with hq
      · rw [List.mem_cons, hk.held.mem c v, hq]
        simp [hv]
      · exact hk.held.mem q v
  · intro v hv
    rw [htask] at hv
    split_ifs at hv with hvt
    · exact hvt ▸ ht
    · exact hk.held.lt v hv
  · intro v q hv
    rw [htask] at hv ⊢
    split_ifs at hv ⊢ with hvt
    · have hqc : q = c := by
        have : c + 1 = q + 1 := hv
        omega
      subst hqc
      refine ⟨hrun.lt, ?_, fun _ => hrun.alive, hby'⟩
      show (u.pool.slots q).state ≠ .exited
      rw [hrun.running]
      decide
    · exact hk.held.creator v q hv

theorem taskDropHold_slots (h0 : (s.tasks t).creatorTag ≠ killTagNone) :
    (s.taskDropHold g t).pool.slots = (fun i => addMember t (s.pool.slots i)) ∧
      (s.taskDropHold g t).pool.next = s.pool.next := by
  rw [(taskDropHold_frame (g := g) h0).1, unhold]
  split_ifs <;> exact ⟨rfl, rfl⟩

theorem taskDropHold_slot (t c : Nat) : ((s.taskDropHold g t).pool.slots c).stamp = (s.pool.slots c).stamp ∧
    ((s.taskDropHold g t).pool.slots c).dying = (s.pool.slots c).dying ∧
    ((s.taskDropHold g t).pool.slots c).task = (s.pool.slots c).task ∧
    ((s.pool.slots c).state ≠ .inactive → ((s.taskDropHold g t).pool.slots c).state = (s.pool.slots c).state) ∧
    (s.taskDropHold g t).pool.next = s.pool.next := by
  by_cases h0 : (s.tasks t).creatorTag = killTagNone
  · rw [taskDropHold_none h0]
    exact ⟨rfl, rfl, rfl, fun _ => rfl, rfl⟩
  · obtain ⟨hslots, hnext⟩ := taskDropHold_slots (g := g) h0
    rw [hslots, hnext]
    have hadd := addMember_slot t (s.pool.slots c)
    refine ⟨hadd.2.2.1, hadd.2.2.2.2.1, ?_, ?_, rfl⟩
    · show (addMember t (s.pool.slots c)).task = _
      rw [addMember]
      split_ifs <;> rfl
    · intro hne
      show (addMember t (s.pool.slots c)).state = _
      rw [addMember, if_neg fun he => hne he.2]

theorem Runs.taskDropHold (hc : Runs s c) (t : Nat) : Runs (s.taskDropHold g t) c := by
  obtain ⟨-, h2, -, h4, h5⟩ := taskDropHold_slot (g := g) (s := s) t c
  refine ⟨h5 ▸ hc.lt, ?_, h2.trans hc.alive⟩
  rw [h4 (by rw [hc.running]; decide)]
  exact hc.running

theorem Kin.taskCreateDeclared (h : Kin g none s) (hc : Runs s c) (ht : t < g.tasks) (a : DomainAsk) (donor : Option Nat) :
    Kin g none (s.taskCreateDeclared g t c a donor) := by
  unfold Pools.taskCreateDeclared
  have hk := h.taskDropHold t
  have hrun := hc.taskDropHold (g := g) t
  have hd := domainFor_only (g := g) (s := s.taskDropHold g t) { a with privileged := false } donor
  generalize (s.taskDropHold g t).domainFor g { a with privileged := false } donor = r at hd
  obtain ⟨_ | d, u⟩ := r
  · exact hk.domOnly hd
  · have hku := hk.domOnly hd
    have hrunu : Runs u c := ⟨hd.pool ▸ hrun.lt, hd.pool ▸ hrun.running, hd.pool ▸ hrun.alive⟩
    have hnone : (u.tasks t).creatorTag = killTagNone := by
      rw [hd.tasks]
      by_cases h0 : (s.tasks t).creatorTag = killTagNone
      · rw [taskDropHold_none h0, h0]
      · rw [(taskDropHold_frame (g := g) h0).2.2, update_self]
        exact dropped_tag _
    dsimp only
    have hfill : ∀ v, ((u.setTask t fun x => x.fill d (u.pool.slots c).stamp).tasks v) =
        if v = t then (u.tasks t).fill d (u.pool.slots c).stamp else u.tasks v := fun v => update_apply _ _ _ _
    refine Kin.taskHold (s := u.setTask t fun x => x.fill d (u.pool.slots c).stamp) ⟨hku.line, ?_, ?_, ?_, ?_⟩
      ⟨hrunu.lt, hrunu.running, hrunu.alive⟩ ht ?_ ?_ d
    · exact hku.held.nodup
    · intro q v
      rw [hfill]
      split_ifs with hv
      · subst hv
        refine (hku.held.mem q v).trans ?_
        rw [hnone]
        rfl
      · exact hku.held.mem q v
    · intro v hv
      rw [hfill] at hv
      split_ifs at hv with hvt
      · exact absurd rfl hv
      · exact hku.held.lt v hv
    · intro v q hv
      rw [hfill] at hv ⊢
      split_ifs at hv ⊢ with hvt
      · exact absurd hv (Nat.succ_ne_zero q).symm
      · exact hku.held.creator v q hv
    · rw [hfill, if_pos rfl]
      rfl
    · rw [hfill, if_pos rfl]
      rfl

theorem Kin.exitUnmap (h : Kin g x s) (hi : c < s.pool.next) (hs : (s.pool.slots c).state ≠ .exited) :
    Kin g x (s.exitUnmap g c) ∧ (s.exitUnmap g c).pool.next = s.pool.next ∧
      ((s.exitUnmap g c).pool.slots c).state = (s.pool.slots c).state := by
  rw [Pools.exitUnmap]
  split_ifs
  · have hd := unmapHolder_only (g := g) (s := s) (s.threadDomain c) c
    have hk := h.domOnly hd
    generalize s.unmapHolder g (s.threadDomain c) c = u at hd hk
    refine ⟨hk.setSlot (by rw [hd.pool]; exact hi) (by rw [hd.pool]; exact hs) rfl rfl rfl rfl
      fun _ => ⟨by rw [hd.pool]; exact hs, rfl⟩, by rw [← hd.pool]; rfl, ?_⟩
    rw [setSlot_slots, if_pos rfl, hd.pool]
  · exact ⟨h, rfl, rfl⟩

theorem Kin.exitBegin (h : Kin g none s) (hc : Runs s c) (t : Nat) : Kin g none (s.exitBegin g c t) := by
  have hs : (s.pool.slots c).state ≠ .exited := by
    rw [hc.running]
    decide
  have hcn : c < g.threads := lt_of_lt_of_le hc.lt h.line.next_le
  -- past the mark the creator is on its way out
  have hdying : Kin g (some c) (s.setSlot c fun x => { x with dying := true }) := by
    refine ⟨h.line.modify (f := fun x => { x with dying := true }) hc.lt hs rfl rfl rfl rfl, h.held.nodup, h.held.mem,
      h.held.lt, ?_⟩
    intro u q hu
    obtain ⟨k1, k2, k3, k4⟩ := h.held.creator u q hu
    refine ⟨k1, ?_⟩
    rw [setSlot_slots]
    split_ifs with hq
    · subst hq
      exact ⟨k2, fun hx => absurd rfl hx, k4⟩
    · exact ⟨k2, fun _ => k3 (Option.some_ne_none q).symm, k4⟩
  have hstate : ((s.setSlot c fun x => { x with dying := true }).pool.slots c).state ≠ .exited := by
    rw [setSlot_slots, if_pos rfl]
    exact hs
  obtain ⟨hk, hn, hst⟩ := hdying.exitUnmap hc.lt hstate
  rw [Pools.exitBegin]
  generalize (s.setSlot c fun x => { x with dying := true }).exitUnmap g c = u at hk hn hst
  have hrel := taskRelease_kept (g := g) (s := u) t
  have hkr := hk.tagsKept hrel
  generalize u.taskRelease g t = r at hrel hkr
  refine (Kin.taskOrphanCreatedBy (hkr.setSlot ?_ ?_ rfl rfl rfl rfl fun _ => ⟨?_, rfl⟩) hcn).1
  · rw [hrel.pool, hn]
    exact hc.lt
  · rw [hrel.pool, hst]
    exact hstate
  · rw [hrel.pool, hst]
    exact hstate

theorem Kin.exitEnd (h : Kin g none s) (hc : c < s.pool.next) (hs : (s.pool.slots c).state = .running)
    (hd : (s.pool.slots c).dying = true) (t : Nat) : Kin g none (s.exitEnd c t) := by
  have hne : (s.pool.slots c).state ≠ .exited := by
    rw [hs]
    decide
  have hnone : ∀ u, (s.tasks u).creatorTag ≠ c + 1 := by
    intro u hu
    have := (h.held.creator u c hu).2.2.1 (Option.some_ne_none c).symm
    rw [hd] at this
    cases this
  have hk := h.setSlot (f := fun x => { x with task := none, left := none }) hc hne rfl rfl rfl rfl fun ⟨u, hu⟩ =>
    absurd hu (hnone u)
  have hslots := setSlot_slots (s := s) (i := c) (fun x => { x with task := none, left := none }) c
  have htag : ∀ u, ((s.setSlot c fun x => { x with task := none, left := none }).tasks u).creatorTag ≠ c + 1 := hnone
  rw [Pools.exitEnd]
  generalize (s.setSlot c fun x => { x with task := none, left := none }) = v at hk hslots htag
  have hvs : (v.pool.slots c).state ≠ .exited := by
    rw [hslots, if_pos rfl]
    exact hne
  have hvn : c < v.pool.next := by
    by_contra hle
    have := (hk.line.blank c (by omega)).2.2.1
    rw [hslots, if_pos rfl] at this
    have hbad : (s.pool.slots c).state = .inactive := this
    rw [hs] at hbad
    cases hbad
  refine Kin.tagsKept ⟨hk.line.retire hvn hvs, ?_⟩ (taskSweepDone_kept t)
  refine hk.held.congr ?_ (fun _ => rfl) (fun _ => rfl) ?_
  · show (v.pool.retire c).created = v.pool.created
    rw [ThreadPool.retire]
    split_ifs <;> rfl
  · intro p k1 k2 ⟨u, hu⟩
    have hpc : p ≠ c := by
      rintro rfl
      exact htag u hu
    have hret : (v.pool.retire c).slots p = v.pool.slots p := by rw [retire_slots, if_neg hpc]
    have hnext : (v.pool.retire c).next = v.pool.next := by
      rw [ThreadPool.retire]
      split_ifs <;> rfl
    show p < (v.pool.retire c).next ∧ ((v.pool.retire c).slots p).state ≠ _ ∧ ((v.pool.retire c).slots p).dying = _ ∧
      ((v.pool.retire c).slots p).stamp = _
    rw [hret, hnext]
    exact ⟨k1, k2, rfl, rfl⟩

theorem Kin.step (h : Kin g none s) (hz : s.births ≠ 0) (hs : Step g s s') : Kin g none s' := by
  cases hs with
  | spawn c tk a hc hw hm htk => exact h.spawn hz hc tk a
  | create c t a hc ht ht' hr => exact h.taskCreateDeclared hc ht' a _
  | drop t ht => exact h.taskDropHold t
  | exitBegin c t hc ht => exact h.exitBegin hc t
  | exitEnd c t hc hs hd ht => exact h.exitEnd hc hs hd t
  | sched c st hc hs hst => exact h.setSlot hc hs rfl rfl rfl rfl fun _ => ⟨hst, rfl⟩

/-- The births of the occupants, and the next one, differ not. -/
structure BirthsKept (s s' : Pools) : Prop where
  births : s'.births = s.births
  stamp : ∀ j, (s'.pool.slots j).stamp = (s.pool.slots j).stamp

theorem BirthsKept.refl (s : Pools) : BirthsKept s s := ⟨rfl, fun _ => rfl⟩

theorem BirthsKept.trans {u : Pools} (h : BirthsKept s u) (h' : BirthsKept u s') : BirthsKept s s' :=
  ⟨h'.births.trans h.births, fun j => (h'.stamp j).trans (h.stamp j)⟩

theorem DomOnly.births_kept (h : DomOnly s s') : BirthsKept s s' := ⟨h.births, fun j => by rw [h.pool]⟩

theorem setSlot_births (f : Tcb → Tcb) (hf : (f (s.pool.slots i)).stamp = (s.pool.slots i).stamp) :
    BirthsKept s (s.setSlot i f) := by
  refine ⟨rfl, fun j => ?_⟩
  rw [setSlot_slots]
  split_ifs with hj
  · rw [hf, hj]
  · rfl

theorem folk_births {q : ThreadPool} (hf : SameFolk s.pool q) : BirthsKept s { s with pool := q } := ⟨rfl, hf.stamp⟩

theorem taskDropHold_births (t : Nat) : BirthsKept s (s.taskDropHold g t) := by
  refine ⟨?_, fun j => (taskDropHold_slot t j).1⟩
  by_cases h0 : (s.tasks t).creatorTag = killTagNone
  · rw [taskDropHold_none h0]
  · exact (taskDropHold_frame h0).2.1

theorem orphanLoop_births : ∀ (fuel : Nat) (s : Pools), BirthsKept s (orphanLoop g fuel s p)
  | 0, s => .refl s
  | fuel + 1, s => by
    rw [Pools.orphanLoop]
    split
    · exact .refl s
    · exact (taskDropHold_births _).trans (orphanLoop_births fuel _)

theorem taskHold_births (d tag : Nat) : BirthsKept s (s.taskHold t d tag) := by
  have hd := (domainRef_only (s := s) (some d)).births_kept
  rw [Pools.taskHold]
  split_ifs
  · exact ⟨hd.births, hd.stamp⟩
  · exact ⟨hd.births, hd.stamp⟩

theorem taskRelease_births (t : Nat) : (s.taskRelease g t).2.births = s.births := by
  rw [taskRelease]
  dsimp only
  split_ifs
  · rfl
  · rfl
  · exact (domainRelease_only _).births
  · exact (freeTask_frame t).2.1

theorem taskRef_births (t : Nat) : (s.taskRef t).births = s.births := by
  rw [taskRef]
  split_ifs
  · exact (domainRef_only _).births
  · rfl

theorem taskSweepDone_births (t : Nat) : BirthsKept s (s.taskSweepDone t) := by
  refine ⟨?_, fun j => by rw [(taskSweepDone_kept t).pool]⟩
  rw [taskSweepDone]
  split_ifs <;> rfl

theorem spawnUnwind_births (tk : Nat) (block : Option Nat) : BirthsKept s (s.spawnUnwind g tk i block) := by
  unfold Pools.spawnUnwind
  split_ifs
  · exact (unmapHolder_only _ i).births_kept.trans (folk_births (release_folk i))
  · cases block with
    | none => exact folk_births (release_folk i)
    | some b =>
      have hpush : BirthsKept s { s with pool := s.pool.stackPush b } := ⟨rfl, fun _ => rfl⟩
      exact hpush.trans (folk_births (release_folk i))

theorem exitBegin_births (c t : Nat) : BirthsKept s (s.exitBegin g c t) := by
  rw [Pools.exitBegin]
  have hdying : BirthsKept s (s.setSlot c fun x => { x with dying := true }) := setSlot_births _ rfl
  refine hdying.trans ?_
  generalize (s.setSlot c fun x => { x with dying := true }) = u
  have hunmap : BirthsKept u (u.exitUnmap g c) := by
    rw [Pools.exitUnmap]
    split_ifs
    · exact (unmapHolder_only _ c).births_kept.trans (setSlot_births _ rfl)
    · exact .refl u
  refine hunmap.trans ?_
  generalize u.exitUnmap g c = v
  have hrel : BirthsKept v (v.taskRelease g t).2 :=
    ⟨taskRelease_births t, fun j => by rw [(taskRelease_kept t).pool]⟩
  refine hrel.trans ?_
  generalize v.taskRelease g t = r
  have hleft : BirthsKept r.2 (r.2.setSlot c fun x => { x with left := some t, task := if r.1 then none else x.task }) :=
    setSlot_births _ rfl
  refine hleft.trans ?_
  generalize (r.2.setSlot c fun x => { x with left := some t, task := if r.1 then none else x.task }) = w
  rw [Pools.taskOrphanCreatedBy]
  split_ifs
  · exact .refl _
  · exact orphanLoop_births _ _

theorem exitEnd_births (c t : Nat) : BirthsKept s (s.exitEnd c t) := by
  rw [Pools.exitEnd]
  have hleft : BirthsKept s (s.setSlot c fun x => { x with task := none, left := none }) := setSlot_births _ rfl
  refine hleft.trans ?_
  generalize (s.setSlot c fun x => { x with task := none, left := none }) = u
  have hret : BirthsKept u { u with pool := u.pool.retire c } := by
    refine ⟨rfl, fun j => ?_⟩
    show ((u.pool.retire c).slots j).stamp = _
    rw [retire_slots]
    split_ifs with hj
    · rw [hj]
    · rfl
  exact hret.trans (taskSweepDone_births t)

theorem taskCreateDeclared_births (a : DomainAsk) (donor : Option Nat) :
    BirthsKept s (s.taskCreateDeclared g t c a donor) := by
  unfold Pools.taskCreateDeclared
  have hd := domainFor_only (g := g) (s := s.taskDropHold g t) { a with privileged := false } donor
  have hdrop := taskDropHold_births (g := g) (s := s) t
  generalize (s.taskDropHold g t).domainFor g { a with privileged := false } donor = r at hd
  obtain ⟨_ | d, u⟩ := r
  · exact hdrop.trans hd.births_kept
  · refine hdrop.trans (hd.births_kept.trans (BirthsKept.trans ?_ (taskHold_births d _)))
    exact ⟨rfl, fun _ => rfl⟩

/-- No two occupants, past or present, have one birth. -/
structure Born (s : Pools) : Prop where
  lt : ∀ i, (s.pool.slots i).stamp < s.births
  inj : ∀ i j, (s.pool.slots i).stamp = (s.pool.slots j).stamp → (s.pool.slots i).stamp ≠ 0 → i = j

theorem Born.kept (h : Born s) (hk : BirthsKept s s') : Born s' := by
  refine ⟨fun i => ?_, fun i j => ?_⟩
  · rw [hk.stamp, hk.births]
    exact h.lt i
  · rw [hk.stamp, hk.stamp]
    exact h.inj i j

theorem Born.spawnCommit (h : Born s) (c tk i base : Nat) (owned driver : Bool) :
    Born (s.spawnCommit c tk i base owned driver) := by
  have hstamp : ∀ j, ((s.spawnCommit c tk i base owned driver).pool.slots j).stamp =
      if j = i then s.births else (s.pool.slots j).stamp := by
    intro j
    rw [Pools.spawnCommit, (taskRef_kept tk).pool]
    refine ((childLink_folk _ i).stamp j).trans ?_
    rw [modify_slots]
    split_ifs <;> rfl
  have hbirths : (s.spawnCommit c tk i base owned driver).births = s.births + 1 := by
    rw [Pools.spawnCommit, taskRef_births]
  refine ⟨fun j => ?_, fun j k => ?_⟩
  · rw [hstamp, hbirths]
    have := h.lt j
    split_ifs <;> omega
  · rw [hstamp, hstamp]
    have hj := h.lt j
    have hk := h.lt k
    split_ifs with h1 h2 h2
    · exact fun _ _ => h1.trans h2.symm
    · intro he
      omega
    · intro he
      omega
    · exact h.inj j k

theorem Born.spawn (h : Born s) (c tk : Nat) (a : SpawnAsk) : Born (s.spawn g c tk a) := by
  unfold Pools.spawn
  cases hcl : s.pool.claim with
  | mk o q =>
    cases o with
    | none => exact h
    | some i =>
      have hq := h.kept (folk_births (claim_folk hcl))
      dsimp only
      generalize ({ s with pool := q } : Pools) = u at hq
      unfold Pools.spawnInto
      obtain ⟨l, hl⟩ := stackFor_pool u.pool g.translating a
      cases hst : u.pool.stackFor g.translating a with
      | mk o r =>
        rw [hst] at hl
        dsimp only at hl
        subst hl
        have hb : Born { u with pool := { u.pool with stackFree := l } } := ⟨hq.lt, hq.inj⟩
        cases o with
        | none => exact hb.kept (spawnUnwind_births tk none)
        | some r =>
          dsimp only
          generalize ({ u with pool := { u.pool with stackFree := l } } : Pools) = v at hb
          have hmap : ∀ w, Born w → Born (if (g.translating ∧ a.mapped < a.windows.length) ∨ a.passes = false then
              w.spawnUnwind g tk i (if r.2 then some r.1 else none) else w.spawnCommit c tk i r.1 r.2 a.driver) := by
            intro w hw
            split_ifs
            · exact hw.kept (spawnUnwind_births tk _)
            · exact hw.kept (spawnUnwind_births tk _)
            · exact hw.spawnCommit c tk i r.1 r.2 a.driver
          by_cases ht : g.translating = true
          · rw [if_pos ht]
            exact hmap _ (hb.kept (spawnMapWindows_only _ _ _).births_kept)
          · rw [if_neg ht]
            exact hmap v hb

theorem Born.step (h : Born s) (hs : Step g s s') : Born s' := by
  cases hs with
  | spawn c tk a hc hw hm htk => exact h.spawn c tk a
  | create c t a hc ht ht' hr => exact h.kept (taskCreateDeclared_births a _)
  | drop t ht => exact h.kept (taskDropHold_births t)
  | exitBegin c t hc ht => exact h.kept (exitBegin_births c t)
  | exitEnd c t hc hs hd ht => exact h.kept (exitEnd_births c t)
  | sched c st hc hs hst => exact h.kept (setSlot_births _ rfl)

end Pools

theorem boot_slots (g : Geometry) (i : Nat) : (boot g).pool.slots i =
    if i = rootIndex then { state := .ready, task := some g.cores, stamp := 1 } else {} := by
  show update (fun _ => ({} : Tcb)) rootIndex { state := .ready, task := some g.cores, stamp := 1 } i = _
  rw [update_apply]

theorem boot_kin (g : Geometry) : Pools.Kin g none (boot g) := by
  have htag : ∀ i, ((boot g).pool.slots i).spawnerTag = killTagNone := by
    intro i
    rw [boot_slots]
    split_ifs <;> rfl
  have hkid : ∀ i, ((boot g).pool.slots i).children = [] := by
    intro i
    rw [boot_slots]
    split_ifs <;> rfl
  have hcr : ∀ t, ((boot g).tasks t).creatorTag = killTagNone := by
    intro t
    show (if t < g.cores then ({ domain := some kdomKernel, refcount := 1 } : TaskRec) else _).creatorTag = _
    split_ifs <;> rfl
  refine ⟨⟨rfl, g.threads_pos, ?_, ?_, List.nodup_nil, ?_, ?_, ?_, ?_⟩, fun _ => List.nodup_nil, ?_, ?_, ?_⟩
  · intro i hi
    have hpos : 1 ≤ i := hi
    have hne : i ≠ rootIndex := by
      rw [rootIndex]
      omega
    rw [boot_slots, if_neg hne]
    exact ⟨rfl, rfl, rfl, rfl⟩
  · exact fun i hi => absurd hi List.not_mem_nil
  · intro q
    rw [hkid]
    exact List.nodup_nil
  · intro q i
    rw [hkid, htag]
    simp [killTagNone]
  · intro i q hi
    rw [htag] at hi
    exact absurd hi (Nat.succ_ne_zero q).symm
  · intro i hi _
    have hi0 : i = rootIndex := Nat.lt_one_iff.1 hi
    rw [boot_slots, if_pos hi0]
    exact Nat.one_ne_zero
  · intro p t
    rw [hcr]
    exact ⟨fun hm => absurd hm List.not_mem_nil, fun hm => absurd hm (Nat.succ_ne_zero p).symm⟩
  · exact fun t h0 => absurd (hcr t) h0
  · intro t p hp
    rw [hcr] at hp
    exact absurd hp (Nat.succ_ne_zero p).symm

theorem boot_born (g : Geometry) : Pools.Born (boot g) := by
  have hb : (boot g).births = 2 := rfl
  refine ⟨fun i => ?_, fun i j => ?_⟩
  · rw [boot_slots, hb]
    split_ifs
    · exact Nat.lt_succ_self 1
    · exact Nat.zero_lt_two
  · rw [boot_slots, boot_slots]
    split_ifs with h1 h2 h2
    · exact fun _ _ => h1.trans h2.symm
    · exact fun he => he.elim
    · exact fun he => he.elim
    · exact fun _ hz => absurd rfl hz

variable {g : Geometry} {s : Pools}

theorem Reachable.kin (h : Reachable g s) : Pools.Kin g none s ∧ Pools.Born s := by
  induction h with
  | boot => exact ⟨boot_kin g, boot_born g⟩
  | step _ hs ih => exact ⟨ih.1.step (Nat.ne_of_gt (Nat.zero_lt_of_lt (ih.2.lt 0))) hs, ih.2.step hs⟩

/-- Cancel and creator authority is never inherited. The children of a slot are the slots whose tag names it, each once.
A cancel passes only for the occupant that spawned the target, and the creator gate only for the one that created the
incarnation of the task; no two occupants have one stamp. -/
theorem authority_not_inherited (h : Reachable g s) :
    (∀ p < g.threads, (s.pool.slots p).children.Nodup ∧
      ∀ i, i ∈ (s.pool.slots p).children ↔ (s.pool.slots i).spawnerTag = killTagForIndex p) ∧
    (∀ c index gen t, c < s.pool.next → s.pool.cancelTarget c index gen = .ok t →
      (s.pool.slots t).spawnedBy = (s.pool.slots c).stamp) ∧
    (∀ c t, c < s.pool.next → s.taskCreatedBy t (killTagForIndex c) →
      (s.tasks t).createdBy = (s.pool.slots c).stamp) ∧
    (∀ i < s.pool.next, (s.pool.slots i).stamp < s.births ∧
      ∀ j < s.pool.next, (s.pool.slots i).stamp = (s.pool.slots j).stamp → i = j) := by
  obtain ⟨hk, hb⟩ := h.kin
  have hlt : ∀ {c}, c < s.pool.next → c < g.threads := fun hc => lt_of_lt_of_le hc hk.line.next_le
  have hnone : ∀ i : Nat, (none : Option Nat) ≠ some i := fun i => (Option.some_ne_none i).symm
  refine ⟨fun p hp => ⟨hk.line.kids_nodup p, fun i => ?_⟩, fun c index gen t hc ht => ?_, fun c t hc ht => ?_,
    fun i hi => ⟨hb.lt i, fun j _ he => hb.inj i j he (hk.line.born i hi (hnone i))⟩⟩
  · rw [killTag_eq hp g.threads_le, hk.line.kids p i]
    exact and_iff_left (hnone i)
  · unfold ThreadPool.cancelTarget at ht
    cases hr : s.pool.resolve index gen with
    | none =>
      rw [hr] at ht
      cases ht
    | some u =>
      rw [hr] at ht
      dsimp only at ht
      split_ifs at ht with h1 h2 h3
      cases ht
      rw [ThreadPool.callerSpawned, Bool.and_eq_true, beq_iff_eq, killTag_eq (hlt hc) g.threads_le] at h3
      exact (hk.line.spawned t c h3.2).2.2
  · have hct := hlt hc
    have hn := g.threads_le
    rw [Pools.taskCreatedBy, Bool.and_eq_true, beq_iff_eq, killTag_eq hct hn, Nat.mod_eq_of_lt (by omega)] at ht
    exact (hk.held.creator t c ht.2).2.2.2

/-- A board with one core, two threads beside root and two declarations. -/
def smallBoard : Geometry where
  threads := 3
  tasks := 4
  domains := 6
  cores := 1
  windows := 4
  translating := true
  threads_pos := by decide
  threads_le := by decide
  tasks_le := by decide
  cores_lt := by decide
  domains_gt := by decide
  refs_fit := by decide
  windows_le := by decide

def rootRuns : Pools := (boot smallBoard).setSlot 0 fun x => { x with state := .running }

/-- Root has spawned a thread into its own task and created a task. -/
def rootSpawned : Pools :=
  (rootRuns.spawn smallBoard 0 1 { block := some 7 }).taskCreateDeclared smallBoard 2 0 {} (some 2)

theorem rootRuns_reachable : Reachable smallBoard rootRuns :=
  Reachable.boot.step (.sched (boot smallBoard) 0 .running (by decide) (by decide) (by decide))

theorem rootSpawned_reachable : Reachable smallBoard rootSpawned := by
  have hspawn : Reachable smallBoard (rootRuns.spawn smallBoard 0 1 { block := some 7 }) :=
    rootRuns_reachable.step (.spawn rootRuns 0 1 { block := some 7 } ⟨by decide, by decide, by decide⟩ (by decide)
      (by decide) (.inl ⟨rfl, by decide⟩))
  exact hspawn.step (.create _ 0 2 {} ⟨by decide, by decide, by decide⟩ (by decide) (by decide) (by decide))

theorem authority_not_inherited_spawned :
    rootSpawned.pool.cancelTarget 0 1 0 = .ok 1 ∧ rootSpawned.taskCreatedBy 2 (killTagForIndex 0) = true ∧
      (rootSpawned.pool.slots 1).spawnedBy = (rootSpawned.pool.slots 0).stamp ∧
      (rootSpawned.tasks 2).createdBy = (rootSpawned.pool.slots 0).stamp :=
  have h := authority_not_inherited rootSpawned_reachable
  ⟨rfl, by decide, h.2.1 0 1 0 1 (by decide) rfl, h.2.2.1 0 2 (by decide) (by decide)⟩

end Life
end KickOS
