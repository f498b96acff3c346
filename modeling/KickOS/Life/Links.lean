import KickOS.Life.Frame

/-! The tags and the lists of children of the thread pool, through claims, releases, creations and retirements. -/

namespace KickOS
namespace Life

theorem killTag_eq {i n : Nat} (hi : i < n) (hn : n ≤ 254) : killTagForIndex i = i + 1 := Nat.mod_eq_of_lt (by omega)

namespace ThreadPool

variable {p p' : ThreadPool} {n i j s tag : Nat}

/-- What a claim, a release and a link leave of every occupant. -/
structure SameFolk (p p' : ThreadPool) : Prop where
  count : p'.count = p.count
  created : p'.created = p.created
  state : ∀ j, (p'.slots j).state = (p.slots j).state
  dying : ∀ j, (p'.slots j).dying = (p.slots j).dying
  task : ∀ j, (p'.slots j).task = (p.slots j).task
  left : ∀ j, (p'.slots j).left = (p.slots j).left
  stamp : ∀ j, (p'.slots j).stamp = (p.slots j).stamp
  spawnedBy : ∀ j, (p'.slots j).spawnedBy = (p.slots j).spawnedBy

theorem SameFolk.refl (p : ThreadPool) : SameFolk p p :=
  ⟨rfl, rfl, fun _ => rfl, fun _ => rfl, fun _ => rfl, fun _ => rfl, fun _ => rfl, fun _ => rfl⟩

theorem SameFolk.trans {q : ThreadPool} (h : SameFolk p q) (h' : SameFolk q p') : SameFolk p p' where
  count := h'.count.trans h.count
  created := h'.created.trans h.created
  state j := (h'.state j).trans (h.state j)
  dying j := (h'.dying j).trans (h.dying j)
  task j := (h'.task j).trans (h.task j)
  left j := (h'.left j).trans (h.left j)
  stamp j := (h'.stamp j).trans (h.stamp j)
  spawnedBy j := (h'.spawnedBy j).trans (h.spawnedBy j)

theorem modify_slots (f : Tcb → Tcb) : (p.modify i f).slots j = if j = i then f (p.slots i) else p.slots j := by
  simp only [modify, Function.update_apply]

theorem modify_folk (f : Tcb → Tcb) (hf : ∀ t, (f t).state = t.state ∧ (f t).dying = t.dying ∧ (f t).task = t.task ∧
    (f t).left = t.left ∧ (f t).stamp = t.stamp ∧ (f t).spawnedBy = t.spawnedBy) : SameFolk p (p.modify i f) := by
  obtain ⟨h1, h2, h3, h4, h5, h6⟩ := hf (p.slots i)
  constructor
  · rfl
  · rfl
  all_goals
    intro j
    rw [modify_slots]
    split_ifs with hj
    · subst hj
      assumption
    · rfl

theorem childLink_folk (tag child : Nat) : SameFolk p (p.childLink tag child) := by
  rw [childLink]
  split_ifs
  · exact .refl p
  · exact modify_folk _ fun t => ⟨rfl, rfl, rfl, rfl, rfl, rfl⟩

theorem childUnlink_folk (child : Nat) : SameFolk p (p.childUnlink child) := by
  rw [childUnlink]
  split_ifs
  · exact .refl p
  · exact modify_folk _ fun t => ⟨rfl, rfl, rfl, rfl, rfl, rfl⟩

theorem orphan_folk : ∀ (l : List Nat) (p : ThreadPool), SameFolk p (p.orphan l)
  | [], p => .refl p
  | n :: rest, p => by
    refine SameFolk.trans ?_ (orphan_folk rest (p.modify n fun c => { c with spawnerTag := killTagNone }))
    exact modify_folk _ fun t => ⟨rfl, rfl, rfl, rfl, rfl, rfl⟩

/-- The stack of the occupant goes to the free list. -/
def dropStack (p : ThreadPool) (s : Nat) : ThreadPool :=
  if (p.slots s).kstackOwned then
    (p.stackPush (p.slots s).stackBase).modify s fun t => { t with kstackOwned := false }
  else p

theorem reclaim_eq (p : ThreadPool) (s : Nat) : p.reclaim s =
    (((p.dropStack s).childUnlink s).modify s fun t => { t with children := [] }).orphan
      (((p.dropStack s).childUnlink s).slots s).children := rfl

theorem dropStack_folk (s : Nat) : SameFolk p (p.dropStack s) := by
  rw [dropStack]
  split_ifs
  · have hpush : SameFolk p (p.stackPush (p.slots s).stackBase) :=
      ⟨rfl, rfl, fun _ => rfl, fun _ => rfl, fun _ => rfl, fun _ => rfl, fun _ => rfl, fun _ => rfl⟩
    refine hpush.trans ?_
    exact modify_folk _ fun t => ⟨rfl, rfl, rfl, rfl, rfl, rfl⟩
  · exact .refl p

theorem reclaim_folk (s : Nat) : SameFolk p (p.reclaim s) := by
  rw [reclaim_eq]
  refine ((dropStack_folk s).trans (childUnlink_folk s)).trans (SameFolk.trans ?_ (orphan_folk _ _))
  exact modify_folk _ fun t => ⟨rfl, rfl, rfl, rfl, rfl, rfl⟩

/-- What a pool function leaves beside the slots. -/
structure SameLists (p p' : ThreadPool) : Prop where
  next : p'.next = p.next
  reclaimable : p'.reclaimable = p.reclaimable

theorem SameLists.trans {q : ThreadPool} (h : SameLists p q) (h' : SameLists q p') : SameLists p p' :=
  ⟨h'.next.trans h.next, h'.reclaimable.trans h.reclaimable⟩

theorem childLink_lists (tag child : Nat) : SameLists p (p.childLink tag child) := by
  rw [childLink]
  split_ifs
  · exact ⟨rfl, rfl⟩
  · exact ⟨rfl, rfl⟩

theorem childUnlink_lists (child : Nat) : SameLists p (p.childUnlink child) := by
  rw [childUnlink]
  split_ifs
  · exact ⟨rfl, rfl⟩
  · exact ⟨rfl, rfl⟩

theorem orphan_lists : ∀ (l : List Nat) (p : ThreadPool), SameLists p (p.orphan l)
  | [], _ => ⟨rfl, rfl⟩
  | n :: rest, p =>
    have hrest := orphan_lists rest (p.modify n fun c => { c with spawnerTag := killTagNone })
    ⟨hrest.next, hrest.reclaimable⟩

theorem dropStack_lists (s : Nat) : SameLists p (p.dropStack s) := by
  rw [dropStack]
  split_ifs
  · exact ⟨rfl, rfl⟩
  · exact ⟨rfl, rfl⟩

theorem reclaim_lists (s : Nat) : SameLists p (p.reclaim s) := by
  rw [reclaim_eq]
  refine ((dropStack_lists s).trans (childUnlink_lists s)).trans (SameLists.trans ?_ (orphan_lists _ _))
  exact ⟨rfl, rfl⟩

theorem orphan_tag : ∀ (l : List Nat) (p : ThreadPool), ((p.orphan l).slots j).spawnerTag =
    if j ∈ l then killTagNone else (p.slots j).spawnerTag
  | [], p => by simp [orphan]
  | n :: rest, p => by
    rw [orphan, orphan_tag rest, modify_slots]
    by_cases hj : j = n
    · subst hj
      simp
    · simp [hj]

theorem orphan_children : ∀ (l : List Nat) (p : ThreadPool), ((p.orphan l).slots j).children = (p.slots j).children
  | [], p => rfl
  | n :: rest, p => by
    rw [orphan, orphan_children rest, modify_slots]
    split_ifs with hj
    · rw [hj]
    · rfl

theorem dropStack_slot (s : Nat) : ((p.dropStack s).slots j).spawnerTag = (p.slots j).spawnerTag ∧
    ((p.dropStack s).slots j).children = (p.slots j).children := by
  rw [dropStack]
  split_ifs
  · rw [modify_slots]
    split_ifs with hj
    · subst hj
      exact ⟨rfl, rfl⟩
    · exact ⟨rfl, rfl⟩
  · exact ⟨rfl, rfl⟩

theorem childUnlink_tag (child : Nat) : ((p.childUnlink child).slots j).spawnerTag = (p.slots j).spawnerTag := by
  rw [childUnlink]
  split_ifs
  · rfl
  · rw [modify_slots]
    split_ifs with hj
    · rw [hj]
    · rfl

theorem childLink_tag (tag child : Nat) : ((p.childLink tag child).slots j).spawnerTag = (p.slots j).spawnerTag := by
  rw [childLink]
  split_ifs
  · rfl
  · rw [modify_slots]
    split_ifs with hj
    · rw [hj]
    · rfl

theorem foreign_iff : p.foreign tag = true ↔ tag = killTagNone ∨ p.count < tag := by
  simp [foreign]

theorem childUnlink_children (hc : (p.slots s).spawnerTag ≤ p.count) : ((p.childUnlink s).slots j).children =
    if (p.slots s).spawnerTag = j + 1 then (p.slots j).children.erase s else (p.slots j).children := by
  rw [childUnlink]
  by_cases h0 : (p.slots s).spawnerTag = killTagNone
  · rw [if_pos (foreign_iff.2 (.inl h0)), if_neg (by rw [h0, killTagNone]; omega)]
  · rw [if_neg fun h => (foreign_iff.1 h).elim h0 (by omega), modify_slots]
    have hpos : (p.slots s).spawnerTag ≠ 0 := h0
    by_cases hj : (p.slots s).spawnerTag = j + 1
    · rw [if_pos (by omega), if_pos hj, show (p.slots s).spawnerTag - 1 = j by omega]
    · rw [if_neg (by omega), if_neg hj]

theorem childLink_children (hc : tag ≤ p.count) (child : Nat) : ((p.childLink tag child).slots j).children =
    if tag = j + 1 then child :: (p.slots j).children else (p.slots j).children := by
  rw [childLink]
  by_cases h0 : tag = killTagNone
  · rw [if_pos (foreign_iff.2 (.inl h0)), if_neg (by rw [h0, killTagNone]; omega)]
  · rw [if_neg fun h => (foreign_iff.1 h).elim h0 (by omega), modify_slots]
    have hpos : tag ≠ 0 := h0
    by_cases hj : tag = j + 1
    · rw [if_pos (by omega), if_pos hj, show tag - 1 = j by omega]
    · rw [if_neg (by omega), if_neg hj]

/-- The tags, the lists of children and the births agree, slot `hole` apart: it is claimed and in no list of children. -/
structure Lineage (n : Nat) (hole : Option Nat) (p : ThreadPool) : Prop where
  count : p.count = n
  next_le : p.next ≤ n
  blank : ∀ i, p.next ≤ i →
    (p.slots i).spawnerTag = killTagNone ∧ (p.slots i).children = [] ∧ (p.slots i).state = .inactive ∧
      (p.slots i).task = none
  listed : ∀ i ∈ p.reclaimable, i < p.next ∧ i ≠ rootIndex ∧ (p.slots i).state = .exited ∧ hole ≠ some i
  nodup : p.reclaimable.Nodup
  kids_nodup : ∀ q, (p.slots q).children.Nodup
  kids : ∀ q i, i ∈ (p.slots q).children ↔ (p.slots i).spawnerTag = q + 1 ∧ hole ≠ some i
  spawned : ∀ i q, (p.slots i).spawnerTag = q + 1 → q < p.next ∧ i ≠ q ∧ (p.slots i).spawnedBy = (p.slots q).stamp
  born : ∀ i, i < p.next → hole ≠ some i → (p.slots i).stamp ≠ 0

variable {hole : Option Nat}

theorem Lineage.tag_le (h : Lineage n hole p) (i : Nat) : (p.slots i).spawnerTag ≤ n := by
  have hn := h.next_le
  rcases Nat.eq_zero_or_eq_succ_pred (p.slots i).spawnerTag with h0 | h1
  · omega
  · have := (h.spawned i _ h1).1
    omega

theorem Lineage.not_self (h : Lineage n hole p) (i : Nat) : (p.slots i).spawnerTag ≠ i + 1 :=
  fun hi => (h.spawned i i hi).2.1 rfl

theorem Lineage.tag_none (h : Lineage n hole p) (hi : p.next ≤ i) (j : Nat) : (p.slots j).spawnerTag ≠ i + 1 := by
  intro hj
  have := (h.spawned j i hj).1
  omega

/-- A claimed slot: nobody names it, and it has no children. -/
structure Claimed (n : Nat) (i : Nat) (p : ThreadPool) : Prop extends Lineage n (some i) p where
  lt : i < p.next
  childless : (p.slots i).children = []
  unnamed : ∀ j, (p.slots j).spawnerTag ≠ i + 1
  again : (p.slots i).state = .exited → i ≠ rootIndex ∧ (p.slots i).stamp ≠ 0
  fresh : (p.slots i).state ≠ .exited →
    i + 1 = p.next ∧ (p.slots i).spawnerTag = killTagNone ∧ (p.slots i).state = .inactive ∧ (p.slots i).task = none

theorem reclaim_tag (h : Lineage n none p) : ((p.reclaim s).slots j).spawnerTag =
    if (p.slots j).spawnerTag = s + 1 then killTagNone else (p.slots j).spawnerTag := by
  have hcount : ((p.dropStack s).slots s).spawnerTag ≤ (p.dropStack s).count := by
    rw [(dropStack_slot s).1, (dropStack_folk s).count, h.count]
    exact h.tag_le s
  have hkids : (((p.dropStack s).childUnlink s).slots s).children = (p.slots s).children := by
    rw [childUnlink_children hcount, (dropStack_slot s).1, if_neg (h.not_self s), (dropStack_slot s).2]
  rw [reclaim_eq, orphan_tag, hkids, modify_slots]
  have hmem : j ∈ (p.slots s).children ↔ (p.slots j).spawnerTag = s + 1 := by
    simpa using h.kids s j
  by_cases hj : (p.slots j).spawnerTag = s + 1
  · rw [if_pos (hmem.2 hj), if_pos hj]
  · rw [if_neg fun hm => hj (hmem.1 hm), if_neg hj]
    split_ifs with hjs
    · subst hjs
      rw [childUnlink_tag, (dropStack_slot j).1]
    · rw [childUnlink_tag, (dropStack_slot s).1]

theorem reclaim_children (h : Lineage n none p) : ((p.reclaim s).slots j).children =
    if j = s then [] else if (p.slots s).spawnerTag = j + 1 then (p.slots j).children.erase s
      else (p.slots j).children := by
  have hcount : ((p.dropStack s).slots s).spawnerTag ≤ (p.dropStack s).count := by
    rw [(dropStack_slot s).1, (dropStack_folk s).count, h.count]
    exact h.tag_le s
  rw [reclaim_eq, orphan_children, modify_slots]
  split_ifs with hjs
  · rfl
  all_goals rw [childUnlink_children hcount, (dropStack_slot s).1, (dropStack_slot s).2]
  · rw [if_pos (by assumption)]
  · rw [if_neg (by assumption)]

theorem genStep_folk (i : Nat) : SameFolk p (p.genStep i) :=
  ⟨rfl, rfl, fun _ => rfl, fun _ => rfl, fun _ => rfl, fun _ => rfl, fun _ => rfl, fun _ => rfl⟩

theorem claim_folk (h : p.claim = (some i, p')) : SameFolk p p' := by
  rw [claim] at h
  cases hr : p.reclaimable with
  | nil =>
    rw [hr] at h
    dsimp only at h
    split_ifs at h <;> cases h
    exact ⟨rfl, rfl, fun _ => rfl, fun _ => rfl, fun _ => rfl, fun _ => rfl, fun _ => rfl, fun _ => rfl⟩
  | cons s rest =>
    rw [hr] at h
    cases h
    have hpop : SameFolk p { p with reclaimable := rest } :=
      ⟨rfl, rfl, fun _ => rfl, fun _ => rfl, fun _ => rfl, fun _ => rfl, fun _ => rfl, fun _ => rfl⟩
    exact (hpop.trans (reclaim_folk _)).trans (genStep_folk _)

/-- The children lists behind a reclaim: the slot has none, and is in none itself. -/
theorem Lineage.reclaim_kids (h : Lineage n none p) (r j : Nat) : j ∈ ((p.reclaim i).slots r).children ↔
    ((p.reclaim i).slots j).spawnerTag = r + 1 ∧ some i ≠ some j := by
  rw [reclaim_children h, reclaim_tag h]
  have hk := h.kids r j
  by_cases hri : r = i
  · subst hri
    simp only [if_true]
    by_cases hj : (p.slots j).spawnerTag = r + 1 <;> simp [hj, killTagNone]
  · rw [if_neg hri]
    by_cases hj : (p.slots j).spawnerTag = i + 1
    · have hne : ¬ j ∈ (p.slots r).children := by
        intro hm
        have := (hk.1 hm).1
        omega
      rw [if_pos hj]
      simp only [killTagNone]
      constructor
      · split_ifs
        · intro hm
          exact absurd (List.mem_of_mem_erase hm) hne
        · intro hm
          exact absurd hm hne
      · rintro ⟨hm, -⟩
        omega
    · rw [if_neg hj]
      split_ifs with hi
      · rw [(h.kids_nodup r).mem_erase_iff, hk]
        simp only [ne_eq, reduceCtorEq, not_false_eq_true, and_true, Option.some.injEq]
        exact ⟨fun hm => ⟨hm.2, fun he => hm.1 he.symm⟩, fun hm => ⟨fun he => hm.2 he.symm, hm.1⟩⟩
      · rw [hk]
        simp only [ne_eq, reduceCtorEq, not_false_eq_true, and_true, Option.some.injEq]
        refine ⟨fun hm => ⟨hm, fun he => hi (he ▸ hm)⟩, fun hm => hm.1⟩

theorem Lineage.claim_again (h : Lineage n none p) {rest : List Nat} (hr : p.reclaimable = i :: rest) :
    Claimed n i ((({ p with reclaimable := rest } : ThreadPool).reclaim i).genStep i) := by
  obtain ⟨hlt, hroot, hex, -⟩ := h.listed i (by rw [hr]; exact List.mem_cons_self)
  have hnd : i ∉ rest ∧ rest.Nodup := by simpa [hr] using h.nodup
  have hpop : Lineage n none { p with reclaimable := rest } :=
    { h with
      listed := fun j hj => h.listed j (by rw [hr]; exact List.mem_cons_of_mem _ hj)
      nodup := hnd.2 }
  have hf := reclaim_folk (p := { p with reclaimable := rest }) i
  have hl := reclaim_lists (p := { p with reclaimable := rest }) i
  have htag : ∀ j, _ := fun j => reclaim_tag (s := i) (j := j) hpop
  have hkid : ∀ j, _ := fun j => reclaim_children (s := i) (j := j) hpop
  have hkids := hpop.reclaim_kids (i := i)
  generalize ({ p with reclaimable := rest } : ThreadPool).reclaim i = q at hf hl htag hkid hkids
  have hle := hf.count
  dsimp only at hle htag hkid
  have hgen : ∀ j, ((q.genStep i).slots j) = q.slots j := fun _ => rfl
  have hunnamed : ∀ j, (q.slots j).spawnerTag ≠ i + 1 := by
    intro j hj
    rw [htag] at hj
    split_ifs at hj with hji
    · exact absurd hj (Nat.succ_ne_zero i).symm
    · exact hji hj
  refine ⟨⟨?_, ?_, ?_, ?_, ?_, ?_, ?_, ?_, ?_⟩, ?_, ?_, ?_, ?_, ?_⟩
  · exact hle.trans h.count
  · show q.next ≤ n
    rw [hl.next]
    exact h.next_le
  · intro j hj
    have hj' : p.next ≤ j := by simpa [hl.next] using (show q.next ≤ j from hj)
    obtain ⟨b1, b2, b3, b4⟩ := h.blank j hj'
    rw [hgen, htag, hkid, hf.state, hf.task]
    refine ⟨by rw [b1]; simp, ?_, b3, b4⟩
    rw [if_neg (by omega), b2]
    simp
  · intro j hj
    have hj' : j ∈ rest := by simpa [hl.reclaimable] using (show j ∈ q.reclaimable from hj)
    obtain ⟨l1, l2, l3, -⟩ := h.listed j (by rw [hr]; exact List.mem_cons_of_mem _ hj')
    refine ⟨?_, l2, ?_, ?_⟩
    · show j < q.next
      rw [hl.next]
      exact l1
    · rw [hgen, hf.state]
      exact l3
    · intro he
      cases he
      exact hnd.1 hj'
  · show q.reclaimable.Nodup
    rw [hl.reclaimable]
    exact hnd.2
  · intro r
    rw [hgen, hkid]
    split_ifs
    · exact List.nodup_nil
    · exact (h.kids_nodup r).erase i
    · exact h.kids_nodup r
  · exact hkids
  · intro j r hj
    rw [hgen, htag] at hj
    split_ifs at hj with hji
    · exact absurd hj (Nat.succ_ne_zero r).symm
    obtain ⟨s1, s2, s3⟩ := h.spawned j r hj
    refine ⟨?_, s2, ?_⟩
    · show r < q.next
      rw [hl.next]
      exact s1
    · rw [hgen, hgen, hf.spawnedBy, hf.stamp]
      exact s3
  · intro j hj _
    rw [hgen, hf.stamp]
    refine h.born j ?_ (Option.some_ne_none j).symm
    have hj' : j < q.next := hj
    rw [hl.next] at hj'
    exact hj'
  · show i < q.next
    rw [hl.next]
    exact hlt
  · rw [hgen, hkid, if_pos rfl]
  · exact hunnamed
  · intro _
    rw [hgen, hf.stamp]
    exact ⟨hroot, h.born i hlt (Option.some_ne_none i).symm⟩
  · intro hne
    rw [hgen, hf.state] at hne
    exact absurd hex hne

theorem Lineage.claim_fresh (h : Lineage n none p) (hlt : p.next < p.count) :
    Claimed n p.next { p with next := p.next + 1 } := by
  obtain ⟨b1, b2, b3, b4⟩ := h.blank p.next (le_refl _)
  refine ⟨⟨h.count, ?_, fun i hi => h.blank i (by have : p.next + 1 ≤ i := hi; omega), ?_, h.nodup, h.kids_nodup, ?_, ?_, ?_⟩,
    Nat.lt_succ_self _, b2, h.tag_none (le_refl _), ?_, fun _ => ⟨rfl, b1, b3, b4⟩⟩
  · have := h.count
    show p.next + 1 ≤ n
    omega
  · intro i hi
    obtain ⟨l1, l2, l3, -⟩ := h.listed i hi
    refine ⟨by show i < p.next + 1; omega, l2, l3, ?_⟩
    intro he
    cases he
    omega
  · intro q i
    rw [h.kids q i]
    simp only [ne_eq, reduceCtorEq, not_false_eq_true, and_true, Option.some.injEq]
    refine ⟨fun hm => ⟨hm, ?_⟩, fun hm => hm.1⟩
    rintro rfl
    rw [b1] at hm
    exact absurd hm (by simp [killTagNone])
  · intro i q hi
    obtain ⟨s1, s2, s3⟩ := h.spawned i q hi
    exact ⟨by show q < p.next + 1; omega, s2, s3⟩
  · intro i hi hne
    refine h.born i ?_ (Option.some_ne_none i).symm
    have hi' : i < p.next + 1 := hi
    have : p.next ≠ i := fun he => hne (congrArg some he)
    omega
  · intro he
    rw [b3] at he
    cases he

theorem Lineage.claim (h : Lineage n none p) (hc : p.claim = (some i, p')) : Claimed n i p' := by
  rw [ThreadPool.claim] at hc
  cases hr : p.reclaimable with
  | nil =>
    rw [hr] at hc
    dsimp only at hc
    split_ifs at hc with hfull <;> cases hc
    have hfresh := h.claim_fresh (by omega)
    rwa [hr] at hfresh
  | cons s rest =>
    rw [hr] at hc
    cases hc
    exact h.claim_again hr

theorem genUnstep_folk (i : Nat) : SameFolk p (p.genUnstep i) :=
  ⟨rfl, rfl, fun _ => rfl, fun _ => rfl, fun _ => rfl, fun _ => rfl, fun _ => rfl, fun _ => rfl⟩

theorem release_folk (i : Nat) : SameFolk p (p.release i) := by
  rw [release]
  split_ifs
  · refine ((genUnstep_folk i).trans (childLink_folk ((p.genUnstep i).slots i).spawnerTag i)).trans ?_
    exact ⟨rfl, rfl, fun _ => rfl, fun _ => rfl, fun _ => rfl, fun _ => rfl, fun _ => rfl, fun _ => rfl⟩
  · exact ⟨rfl, rfl, fun _ => rfl, fun _ => rfl, fun _ => rfl, fun _ => rfl, fun _ => rfl, fun _ => rfl⟩
  · exact .refl p

theorem Claimed.relink (h : Claimed n i p) (hb : (p.slots i).stamp ≠ 0) :
    Lineage n none (p.childLink (p.slots i).spawnerTag i) := by
  have hf := childLink_folk (p := p) (p.slots i).spawnerTag i
  have hl := childLink_lists (p := p) (p.slots i).spawnerTag i
  have htag : ∀ j, _ := fun j => childLink_tag (p := p) (j := j) (p.slots i).spawnerTag i
  have hle : (p.slots i).spawnerTag ≤ p.count := by
    rw [h.count]
    exact h.tag_le i
  have hkid : ∀ j, _ := fun j => childLink_children (j := j) hle i
  generalize p.childLink (p.slots i).spawnerTag i = q at hf hl htag hkid
  have hself : ∀ r, i ∉ (p.slots r).children := fun r hm => ((h.kids r i).1 hm).2 rfl
  refine ⟨hf.count.trans h.count, by rw [hl.next]; exact h.next_le, ?_, ?_, by rw [hl.reclaimable]; exact h.nodup, ?_, ?_, ?_,
    ?_⟩
  · intro j hj
    rw [hl.next] at hj
    obtain ⟨b1, b2, b3, b4⟩ := h.blank j hj
    rw [htag, hkid, hf.state, hf.task]
    exact ⟨b1, by rw [if_neg (h.tag_none hj i), b2], b3, b4⟩
  · intro j hj
    rw [hl.reclaimable] at hj
    obtain ⟨l1, l2, l3, -⟩ := h.listed j hj
    rw [hl.next, hf.state]
    exact ⟨l1, l2, l3, (Option.some_ne_none _).symm⟩
  · intro r
    rw [hkid]
    split_ifs
    · exact List.nodup_cons.2 ⟨hself r, h.kids_nodup r⟩
    · exact h.kids_nodup r
  · intro r j
    rw [hkid, htag]
    have hk := h.kids r j
    by_cases hji : j = i
    · subst hji
      split_ifs with hr
      · simp [hr]
      · simp [hr, hself r]
    · have hk' : j ∈ (p.slots r).children ↔ (p.slots j).spawnerTag = r + 1 := by
        rw [hk]
        exact ⟨fun hm => hm.1, fun hm => ⟨hm, fun he => hji (Option.some.inj he).symm⟩⟩
      split_ifs
      · simp [hji, hk']
      · simp [hk']
  · intro j r hj
    rw [htag] at hj
    rw [hl.next, hf.spawnedBy, hf.stamp]
    exact h.spawned j r hj
  · intro j hj _
    rw [hl.next] at hj
    rw [hf.stamp]
    by_cases hji : j = i
    · exact hji ▸ hb
    · exact h.born j hj fun he => hji (Option.some.inj he).symm

theorem Claimed.genUnstep (h : Claimed n i p) : Claimed n i (p.genUnstep i) :=
  ⟨{ h with }, h.lt, h.childless, h.unnamed, h.again,
    h.fresh⟩

theorem Claimed.release (h : Claimed n i p) : Lineage n none (p.release i) := by
  rw [ThreadPool.release]
  split_ifs with hex hnext
  · have hlink := h.genUnstep.relink (h.again hex).2
    have hf := childLink_folk (p := p.genUnstep i) ((p.genUnstep i).slots i).spawnerTag i
    have hl := childLink_lists (p := p.genUnstep i) ((p.genUnstep i).slots i).spawnerTag i
    dsimp only
    generalize (p.genUnstep i).childLink ((p.genUnstep i).slots i).spawnerTag i = q at hlink hf hl ⊢
    have hin : i ∉ p.reclaimable := fun hm => (h.listed i hm).2.2.2 rfl
    refine ⟨hlink.count, hlink.next_le, hlink.blank, ?_, ?_, hlink.kids_nodup, hlink.kids, hlink.spawned, hlink.born⟩
    · intro j hj
      rcases List.mem_cons.1 hj with rfl | hj
      · refine ⟨?_, (h.again hex).1, (hf.state j).trans hex, (Option.some_ne_none _).symm⟩
        show j < q.next
        rw [hl.next]
        exact h.lt
      · exact hlink.listed j hj
    · show (i :: q.reclaimable).Nodup
      rw [hl.reclaimable]
      exact List.nodup_cons.2 ⟨hin, h.nodup⟩
  · obtain ⟨-, f2, f3, f4⟩ := h.fresh hex
    have hnone : ∀ r, (p.slots i).spawnerTag ≠ r + 1 := fun r hr => absurd (f2.symm.trans hr) (Nat.succ_ne_zero r).symm
    refine ⟨h.count, ?_, ?_, ?_, h.nodup, h.kids_nodup, ?_, ?_, ?_⟩
    · have := h.next_le
      show p.next - 1 ≤ n
      omega
    · intro j hj
      have hj' : p.next - 1 ≤ j := hj
      by_cases hji : j = i
      · subst hji
        exact ⟨f2, h.childless, f3, f4⟩
      · exact h.blank j (by omega)
    · intro j hj
      obtain ⟨l1, l2, l3, l4⟩ := h.listed j hj
      refine ⟨?_, l2, l3, (Option.some_ne_none _).symm⟩
      have hne : i ≠ j := fun he => l4 (congrArg some he)
      show j < p.next - 1
      omega
    · intro r j
      rw [h.kids r j]
      refine ⟨fun hm => ⟨hm.1, (Option.some_ne_none _).symm⟩, fun hm => ⟨hm.1, ?_⟩⟩
      intro he
      cases he
      exact hnone r hm.1
    · intro j r hj
      obtain ⟨s1, s2, s3⟩ := h.spawned j r hj
      refine ⟨?_, s2, s3⟩
      have hne : r ≠ i := by
        rintro rfl
        exact h.unnamed j hj
      show r < p.next - 1
      omega
    · intro j hj _
      have hj' : j < p.next - 1 := hj
      refine h.born j (by omega) fun he => ?_
      cases he
      omega
  · exact absurd (h.fresh hex).1 hnext

theorem Claimed.create (h : Claimed n i p) (hn : n ≤ 254) {c : Nat} {t : Tcb} (hc : c < p.next) (hci : c ≠ i)
    (ht : t.spawnerTag = killTagForIndex c) (hkids : t.children = []) (hby : t.spawnedBy = (p.slots c).stamp)
    (hst : t.stamp ≠ 0) : Lineage n none (p.create i t) := by
  have hcn := h.next_le
  rw [killTag_eq (n := n) (by omega) hn] at ht
  have hslot : ∀ j, (p.modify i fun _ => t).slots j = if j = i then t else p.slots j := fun j => modify_slots _
  have hfor : t.spawnerTag ≤ (p.modify i fun _ => t).count := by
    show t.spawnerTag ≤ p.count
    rw [h.count]
    omega
  have htag : ∀ j, ((p.create i t).slots j).spawnerTag = if j = i then c + 1 else (p.slots j).spawnerTag := by
    intro j
    rw [ThreadPool.create, childLink_tag, hslot]
    split_ifs
    · exact ht
    · rfl
  have hkid : ∀ j, ((p.create i t).slots j).children =
      if j = i then [] else if j = c then i :: (p.slots j).children else (p.slots j).children := by
    intro j
    rw [ThreadPool.create, childLink_children hfor, hslot, ht]
    by_cases hji : j = i
    · subst hji
      rw [if_neg (by omega), if_pos rfl, if_pos rfl, hkids]
    · rw [if_neg hji, if_neg hji]
      by_cases hjc : j = c
      · rw [if_pos (by omega), if_pos hjc]
      · rw [if_neg (by omega), if_neg hjc]
  have hf := childLink_folk (p := p.modify i fun _ => t) t.spawnerTag i
  have hl := childLink_lists (p := p.modify i fun _ => t) t.spawnerTag i
  have hnext : (p.create i t).next = p.next := hl.next
  have hrec : (p.create i t).reclaimable = p.reclaimable := hl.reclaimable
  have hother : ∀ j, j ≠ i → (p.modify i fun _ => t).slots j = p.slots j := fun j hj => by rw [hslot, if_neg hj]
  have hself : ∀ r, i ∉ (p.slots r).children := fun r hm => ((h.kids r i).1 hm).2 rfl
  refine ⟨hf.count.trans h.count, hnext ▸ h.next_le, ?_, ?_, hrec ▸ h.nodup, ?_, ?_, ?_, ?_⟩
  · intro j hj
    rw [hnext] at hj
    obtain ⟨b1, b2, b3, b4⟩ := h.blank j hj
    have hji : j ≠ i := by
      have := h.lt
      omega
    rw [htag, hkid, if_neg hji, if_neg hji, if_neg (by omega)]
    exact ⟨b1, b2, (hf.state j).trans (by rw [hother j hji]; exact b3), (hf.task j).trans (by rw [hother j hji]; exact b4)⟩
  · intro j hj
    rw [hrec] at hj
    obtain ⟨l1, l2, l3, l4⟩ := h.listed j hj
    have hji : j ≠ i := fun he => l4 (congrArg some he.symm)
    rw [hnext]
    exact ⟨l1, l2, (hf.state j).trans (by rw [hother j hji]; exact l3), (Option.some_ne_none _).symm⟩
  · intro r
    rw [hkid]
    split_ifs
    · exact List.nodup_nil
    · exact List.nodup_cons.2 ⟨hself r, h.kids_nodup r⟩
    · exact h.kids_nodup r
  · intro r j
    rw [hkid, htag]
    have hk := h.kids r j
    by_cases hji : j = i
    · subst hji
      by_cases hrj : r = j
      · subst hrj
        simp [hci]
      · by_cases hrc : r = c
        · simp [hrc, hci]
        · simp [hrj, hrc, hself r]
          omega
    · have hk' : j ∈ (p.slots r).children ↔ (p.slots j).spawnerTag = r + 1 := by
        rw [hk]
        exact ⟨fun hm => hm.1, fun hm => ⟨hm, fun he => hji (Option.some.inj he).symm⟩⟩
      by_cases hri : r = i
      · subst hri
        simp [hji, h.unnamed j]
      · by_cases hrc : r = c
        · subst hrc
          simp [hri, hji, hk']
        · simp [hri, hrc, hji, hk']
  · intro j r hj
    rw [htag] at hj
    rw [hnext]
    by_cases hji : j = i
    · subst hji
      rw [if_pos rfl] at hj
      have hrc : r = c := by omega
      subst hrc
      refine ⟨hc, hci.symm, ?_⟩
      rw [show ((p.create j t).slots j).spawnedBy = _ from hf.spawnedBy j,
        show ((p.create j t).slots r).stamp = _ from hf.stamp r, hslot, if_pos rfl, hother r hci]
      exact hby
    · rw [if_neg hji] at hj
      obtain ⟨s1, s2, s3⟩ := h.spawned j r hj
      have hri : r ≠ i := by
        rintro rfl
        exact h.unnamed j hj
      refine ⟨s1, s2, ?_⟩
      rw [show ((p.create i t).slots j).spawnedBy = _ from hf.spawnedBy j,
        show ((p.create i t).slots r).stamp = _ from hf.stamp r, hother j hji, hother r hri]
      exact s3
  · intro j hj _
    rw [hnext] at hj
    rw [show ((p.create i t).slots j).stamp = _ from hf.stamp j, hslot]
    split_ifs with hji
    · exact hst
    · exact h.born j hj fun he => hji (Option.some.inj he).symm

/-- The lineage reads the tags, the lists and the births, and which of the named slots are exited. -/
theorem Lineage.congr (h : Lineage n hole p) (hc : p'.count = p.count) (hn : p'.next = p.next)
    (hr : p'.reclaimable = p.reclaimable) (htag : ∀ j, (p'.slots j).spawnerTag = (p.slots j).spawnerTag)
    (hkid : ∀ j, (p'.slots j).children = (p.slots j).children) (hst : ∀ j, (p'.slots j).stamp = (p.slots j).stamp)
    (hby : ∀ j, (p'.slots j).spawnedBy = (p.slots j).spawnedBy)
    (hb : ∀ j, p.next ≤ j → (p'.slots j).state = (p.slots j).state ∧ (p'.slots j).task = (p.slots j).task)
    (hl : ∀ j ∈ p.reclaimable, (p'.slots j).state = (p.slots j).state) : Lineage n hole p' where
  count := hc.trans h.count
  next_le := hn ▸ h.next_le
  blank j hj := by
    rw [htag, hkid, (hb j (hn ▸ hj)).1, (hb j (hn ▸ hj)).2]
    exact h.blank j (hn ▸ hj)
  listed j hj := by
    rw [hr] at hj
    rw [hn, hl j hj]
    exact h.listed j hj
  nodup := hr ▸ h.nodup
  kids_nodup j := by
    rw [hkid]
    exact h.kids_nodup j
  kids q j := by
    rw [hkid, htag]
    exact h.kids q j
  spawned j q hj := by
    rw [htag] at hj
    rw [hn, hby, hst]
    exact h.spawned j q hj
  born j hj := by
    rw [hst]
    exact h.born j (hn ▸ hj)

theorem Lineage.modify (h : Lineage n hole p) (hi : i < p.next) (hs : (p.slots i).state ≠ .exited) {f : Tcb → Tcb}
    (h1 : (f (p.slots i)).spawnerTag = (p.slots i).spawnerTag) (h2 : (f (p.slots i)).children = (p.slots i).children)
    (h3 : (f (p.slots i)).stamp = (p.slots i).stamp) (h4 : (f (p.slots i)).spawnedBy = (p.slots i).spawnedBy) :
    Lineage n hole (p.modify i f) := by
  have hslot : ∀ j, (p.modify i f).slots j = if j = i then f (p.slots i) else p.slots j := fun j => modify_slots f
  refine h.congr rfl rfl rfl ?_ ?_ ?_ ?_ ?_ ?_
  · intro j
    rw [hslot]
    split_ifs with hj
    · rw [h1, hj]
    · rfl
  · intro j
    rw [hslot]
    split_ifs with hj
    · rw [h2, hj]
    · rfl
  · intro j
    rw [hslot]
    split_ifs with hj
    · rw [h3, hj]
    · rfl
  · intro j
    rw [hslot]
    split_ifs with hj
    · rw [h4, hj]
    · rfl
  · intro j hj
    rw [hslot, if_neg (by omega)]
    exact ⟨rfl, rfl⟩
  · intro j hj
    rw [hslot, if_neg]
    rintro rfl
    exact hs (h.listed j hj).2.2.1

theorem retire_slots (i j : Nat) : (p.retire i).slots j =
    if j = i then { p.slots i with state := .exited } else p.slots j := by
  have hmod := modify_slots (p := p) (i := i) (j := j) fun t => { t with state := .exited }
  rw [ThreadPool.retire]
  split_ifs at hmod ⊢ <;> exact hmod

theorem Lineage.retire (h : Lineage n none p) (hi : i < p.next) (hs : (p.slots i).state ≠ .exited) :
    Lineage n none (p.retire i) := by
  have hin : i ∉ p.reclaimable := fun hm => hs (h.listed i hm).2.2.1
  have hmod := h.modify (f := fun t => { t with state := .exited }) hi hs rfl rfl rfl rfl
  rw [ThreadPool.retire]
  split_ifs with hroot
  · exact hmod
  · refine ⟨hmod.count, hmod.next_le, hmod.blank, ?_, ?_, hmod.kids_nodup, hmod.kids, hmod.spawned, hmod.born⟩
    · intro j hj
      rcases List.mem_cons.1 hj with rfl | hj
      · refine ⟨hi, hroot, ?_, (Option.some_ne_none _).symm⟩
        show ((p.modify j fun t => { t with state := .exited }).slots j).state = .exited
        rw [modify_slots, if_pos rfl]
      · exact hmod.listed j hj
    · exact List.nodup_cons.2 ⟨hin, h.nodup⟩

end ThreadPool

end Life
end KickOS
