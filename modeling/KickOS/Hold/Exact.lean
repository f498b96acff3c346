import KickOS.Hold.Usage
import KickOS.Lib.Epoch
import KickOS.Lib.Tally

/-! A derivation counts what there is: no slot carries the mark of an epoch that begins, however many came before. -/

namespace KickOS
namespace Hold
open Lib Lib.Epoch Lib.Tally
open Function (update update_of_ne update_self)

variable {x y : Sys} {m : Marks} {count : Held → Nat} {g : Staging} {o : Objects} {t : TaskId} {h : Held} {i : Nat}

/-! ### A new epoch -/

/-- How many epochs a round of the sweep takes: the widest pool. -/
def period (count : Held → Nat) : Nat := max 1 (max (count .endpoint) (max (count .irq) (count .notify)))

theorem lt_period (hi : i < count h) : i < period count := by
  unfold period
  cases h <;> omega

structure Aging (count : Held → Nat) (m : Marks) : Prop where
  epoch : m.epoch ≤ 65535
  sweep : m.sweep < period count
  aged : ∀ h i, i < count h → Aged 65535 (period count) m.epoch m.sweep i (m.mark h i)
  beyond : ∀ h i, count h ≤ i → m.mark h i = 0

theorem epochNext_eq {e : Nat} (he : e ≤ 65535) : epochNext e = next 65535 e := by
  simp only [epochNext, next]
  split_ifs <;> omega

theorem sweepPool_mark (slot : Nat) (h' : Held) :
    (sweepPool count slot m h').mark h i = if h = h' ∧ i = slot ∧ slot < count h ∧ m.mark h i ≠ m.epoch then 0
      else m.mark h i := by
  unfold sweepPool
  by_cases hh : h = h'
  · subst hh
    by_cases hi : i = slot
    · subst hi
      split_ifs with h1 h2 h2
      · simp [Marks.set]
      · exact absurd ⟨rfl, rfl, h1⟩ h2
      · exact absurd h2.2.2 h1
      · rfl
    · split_ifs with h1 h2 h2
      · exact absurd h2.2.1 hi
      · simp [Marks.set, hi]
      · exact absurd h2.2.1 hi
      · rfl
  · split_ifs with h1 h2 h2
    · exact absurd h2.1 hh
    · simp [Marks.set, hh]
    · exact absurd h2.1 hh
    · rfl

theorem sweepPool_epoch (slot : Nat) (h' : Held) : (sweepPool count slot m h').epoch = m.epoch := by
  unfold sweepPool
  split_ifs <;> rfl

theorem sweepPools_mark (slot : Nat) :
    (Held.pools.foldl (sweepPool count slot) m).mark h i =
      if i = slot ∧ slot < count h ∧ m.mark h i ≠ m.epoch then 0 else m.mark h i := by
  simp only [Held.pools, List.foldl_cons, List.foldl_nil, sweepPool_mark, sweepPool_epoch]
  cases h <;> simp

theorem sweepPools_epoch (slot : Nat) : (Held.pools.foldl (sweepPool count slot) m).epoch = m.epoch := by
  simp only [Held.pools, List.foldl_cons, List.foldl_nil, sweepPool_epoch]

theorem holdEpochBegin_epoch (he : m.epoch ≤ 65535) : (holdEpochBegin count m).epoch = next 65535 m.epoch := by
  show (Held.pools.foldl (sweepPool count m.sweep) { m with epoch := epochNext m.epoch }).epoch = _
  rw [sweepPools_epoch]
  exact epochNext_eq he

theorem holdEpochBegin_sweep (hs : m.sweep < period count) (hw : ∀ h, count h ≤ 65534) :
    (holdEpochBegin count m).sweep = (m.sweep + 1) % period count := by
  show (if Held.pools.any fun h => m.sweep + 1 < count h then (m.sweep + 1) % 2 ^ 16 else 0) = _
  have h1 := hw .endpoint
  have h2 := hw .irq
  have h3 := hw .notify
  simp only [Held.pools, List.any_cons, List.any_nil, Bool.or_false, Bool.or_eq_true, decide_eq_true_eq]
  simp only [period] at hs ⊢
  split_ifs with hlt
  · rw [Nat.mod_eq_of_lt (by omega), Nat.mod_eq_of_lt (by omega)]
  · rw [show m.sweep + 1 = max 1 (max (count .endpoint) (max (count .irq) (count .notify))) by omega, Nat.mod_self]

theorem holdEpochBegin_mark (hi : i < count h) : (holdEpochBegin count m).mark h i =
    if i = m.sweep ∧ m.mark h i ≠ epochNext m.epoch then 0 else m.mark h i := by
  show (Held.pools.foldl (sweepPool count m.sweep) { m with epoch := epochNext m.epoch }).mark h i = _
  rw [sweepPools_mark]
  by_cases hs : i = m.sweep
  · subst hs; simp [hi]
  · simp [hs]

theorem Aging.begin (ha : Aging count m) (hw : ∀ h, count h ≤ 65534) : Aging count (holdEpochBegin count m) ∧
    1 ≤ (holdEpochBegin count m).epoch ∧
    ∀ h i, (holdEpochBegin count m).mark h i ≠ (holdEpochBegin count m).epoch := by
  have hepoch : (holdEpochBegin count m).epoch = next 65535 m.epoch := holdEpochBegin_epoch ha.epoch
  have hsweep := holdEpochBegin_sweep ha.sweep hw
  have hp : period count < 65535 := by
    have h1 := hw .endpoint
    have h2 := hw .irq
    have h3 := hw .notify
    unfold period
    omega
  have hbeyond : ∀ h i, count h ≤ i → (holdEpochBegin count m).mark h i = 0 := fun h i hi => by
    show (Held.pools.foldl (sweepPool count m.sweep) { m with epoch := epochNext m.epoch }).mark h i = 0
    rw [sweepPools_mark]
    split_ifs
    · rfl
    · exact ha.beyond h i hi
  refine ⟨⟨?_, ?_, fun h i hi => ?_, hbeyond⟩, ?_, fun h i => ?_⟩
  · rw [hepoch]; exact next_le (by decide)
  · rw [hsweep]; exact Nat.mod_lt _ (by unfold period; omega)
  · rw [hepoch, hsweep, holdEpochBegin_mark hi, epochNext_eq ha.epoch]
    have hold := ha.aged h i hi
    split_ifs with hs
    · exact .inl rfl
    · refine hold.next (lt_period hi) ha.sweep fun heq => hs ⟨heq, hold.ne_next hp⟩
  · rw [hepoch]; exact next_pos
  · rcases Nat.lt_or_ge i (count h) with hi | hi
    · rw [hepoch, holdEpochBegin_mark hi]
      split_ifs
      · simp [next]
      · exact (ha.aged h i hi).ne_next hp
    · rw [hbeyond h i hi, hepoch]
      simp [next]

theorem set_mark (h' : Held) (i' v : Nat) :
    (m.set h i v).mark h' i' = if h' = h ∧ i' = i then v else m.mark h' i' := by
  by_cases hh : h' = h
  · subst hh
    by_cases hi : i' = i
    · subst hi; simp [Marks.set]
    · simp [Marks.set, hi]
  · simp [Marks.set, hh]

theorem Aging.set (ha : Aging count m) (h1 : 1 ≤ m.epoch) (hi : i < count h) : Aging count (m.set h i m.epoch) := by
  refine ⟨ha.epoch, ha.sweep, fun h' i' hi' => ?_, fun h' i' hi' => ?_⟩
  · rw [set_mark]
    split_ifs
    · exact aged_self h1 ha.epoch (by unfold period; omega)
    · exact ha.aged h' i' hi'
  · rw [set_mark, if_neg]
    · exact ha.beyond h' i' hi'
    · rintro ⟨rfl, rfl⟩
      omega

/-! ### Staging -/

def named (l : List (Held × Option Nat)) : List (Held × Nat) := l.filterMap fun e => e.2.map fun i => (e.1, i)

theorem named_append (l l' : List (Held × Option Nat)) : named (l ++ l') = named l ++ named l' := List.filterMap_append

theorem mem_named {l : List (Held × Option Nat)} : (h, i) ∈ named l ↔ (h, some i) ∈ l := by
  simp only [named, List.mem_filterMap]
  constructor
  · rintro ⟨⟨h', _ | j⟩, hm, he⟩
    · cases he
    · cases he; exact hm
  · intro hm
    exact ⟨_, hm, rfl⟩

/-- The slots that carry the mark of the derivation. -/
def seen (count : Held → Nat) (g : Staging) (h : Held) : Finset Nat :=
  (Finset.range (count h)).filter fun i => g.marks.mark h i = g.marks.epoch

/-- Every slot staged is one of its pool. -/
def Bounded (count : Held → Nat) (l : List (Held × Option Nat)) : Prop := ∀ h i, (h, some i) ∈ l → i < count h

/-- The state of a derivation behind the slots of `l`. -/
structure Staged (count limit : Held → Nat) (l : List (Held × Option Nat)) (g : Staging) : Prop where
  aging : Aging count g.marks
  epoch : 1 ≤ g.marks.epoch
  budget : g.budget = limit
  counted : Counted limit (named l) (seen count g)
  card : ∀ h, g.count h = (seen count g h).card

variable {limit : Held → Nat} {l l' : List (Held × Option Nat)}

theorem Staged.mem_seen (hs : Staged count limit l g) : i ∈ seen count g h ↔ g.marks.mark h i = g.marks.epoch := by
  simp only [seen, Finset.mem_filter, Finset.mem_range, and_iff_right_iff_imp]
  intro hm
  by_contra hi
  rw [hs.aging.beyond h i (Nat.le_of_not_lt hi)] at hm
  have := hs.epoch
  omega

/-- The slots of `l` stay within the limits. -/
def Within (limit : Held → Nat) (l : List (Held × Option Nat)) : Prop := ∀ h, (items (named l) h).card ≤ limit h

theorem Within.of_append (hw : Within limit (l ++ l')) : Within limit l := fun h => by
  refine (Finset.card_le_card ?_).trans (hw h)
  rw [named_append, items_append]
  exact Finset.subset_union_left

theorem Staged.begin (ha : Aging count m) (hw : ∀ h, count h ≤ 65534) (limit : Held → Nat) :
    Staged count limit [] { marks := holdEpochBegin count m, budget := limit } := by
  obtain ⟨h1, h2, h3⟩ := ha.begin hw
  have hempty : seen count { marks := holdEpochBegin count m, budget := limit } = fun _ => ∅ := by
    funext h
    exact Finset.filter_false_of_mem fun i _ => h3 h i
  refine ⟨h1, h2, rfl, ?_, fun h => ?_⟩
  · rw [hempty]; exact counted_nil
  · rw [hempty]; rfl

theorem seen_set {n : Held → Nat} (hi : i < count h) :
    seen count { g with marks := g.marks.set h i g.marks.epoch, count := n } =
      update (seen count g) h (insert i (seen count g h)) := by
  funext h'
  ext i'
  simp only [seen, Finset.mem_filter, Finset.mem_range, set_mark]
  by_cases hh : h' = h
  · subst hh
    rw [update_self]
    by_cases hii : i' = i
    · subst hii
      simp [hi, Marks.set]
    · simp [hii, Marks.set]
  · rw [update_of_ne hh]
    simp [hh, Marks.set, seen]

theorem Staged.stageHold (hs : Staged count limit l g) (e : Held × Option Nat) (hb : ∀ i, e.2 = some i → i < count e.1) :
    Staged count limit (l ++ [e]) (stageHold g e).1 ∧
      (Within limit l → ((Hold.stageHold g e).2 = true ↔ Within limit (l ++ [e]))) := by
  obtain ⟨h, _ | i⟩ := e
  · have hsame : named (l ++ [(h, none)]) = named l := by simp [named]
    refine ⟨⟨hs.aging, hs.epoch, hs.budget, ?_, hs.card⟩, fun hw => iff_of_true rfl ?_⟩
    · rw [hsame]; exact hs.counted
    · unfold Within; rw [hsame]; exact hw
  · have hi := hb i rfl
    have hsnoc : named (l ++ [(h, some i)]) = named l ++ [(h, i)] := by simp [named]
    -- the other kinds are as they were
    have hwithin : Within limit l → ((i ∈ seen count g h ∨ (seen count g h).card < limit h) ↔
        Within limit (l ++ [(h, some i)])) := fun hw => by
      rw [hs.counted.fits_iff (hw h), ← hsnoc]
      refine ⟨fun hfit h' => ?_, fun hfit => hfit h⟩
      by_cases hh : h' = h
      · subst hh; exact hfit
      · rw [hsnoc, items_snoc, if_neg hh]; exact hw h'
    unfold Hold.stageHold
    dsimp only
    split_ifs with hmark hfull
    · have hin : i ∈ seen count g h := hs.mem_seen.mpr hmark
      refine ⟨⟨hs.aging, hs.epoch, hs.budget, ?_, hs.card⟩, fun hw => iff_of_true rfl ((hwithin hw).mp (.inl hin))⟩
      rw [hsnoc]; exact hs.counted.skip (.inl hin)
    · rw [hs.budget, hs.card] at hfull
      have hout : i ∉ seen count g h := mt hs.mem_seen.mp hmark
      refine ⟨⟨hs.aging, hs.epoch, hs.budget, ?_, hs.card⟩, fun hw => iff_of_false (by simp) fun hfit => ?_⟩
      · rw [hsnoc]; exact hs.counted.skip (.inr hfull)
      · rcases (hwithin hw).mpr hfit with hin | hlt
        · exact hout hin
        · omega
    · rw [hs.budget, hs.card] at hfull
      have hout : i ∉ seen count g h := mt hs.mem_seen.mp hmark
      refine ⟨⟨hs.aging.set hs.epoch hi, hs.epoch, hs.budget, ?_, fun h' => ?_⟩,
        fun hw => iff_of_true rfl ((hwithin hw).mp (.inr (by omega)))⟩
      · rw [seen_set hi, hsnoc]
        exact hs.counted.take hout (by omega)
      · rw [seen_set hi]
        show update g.count h (g.count h + 1) h' = _
        by_cases hh : h' = h
        · subst hh
          rw [update_self, update_self, Finset.card_insert_of_notMem hout, hs.card]
        · rw [update_of_ne hh, update_of_ne hh, hs.card]

theorem Staged.stageAll (hs : Staged count limit l g) (hb : Bounded count l') :
    Staged count limit (l ++ l') (stageAll g l').1 ∧
      (Within limit l → ((Hold.stageAll g l').2 = true ↔ Within limit (l ++ l'))) := by
  induction l' generalizing l g with
  | nil =>
    rw [List.append_nil]
    exact ⟨hs, fun hw => iff_of_true rfl hw⟩
  | cons e l' ih =>
    obtain ⟨h1, h2⟩ := hs.stageHold e fun i hi => hb e.1 i (by rw [← hi]; exact List.mem_cons_self)
    obtain ⟨h3, h4⟩ := ih h1 fun h i hm => hb h i (List.mem_cons_of_mem _ hm)
    rw [List.append_assoc, List.singleton_append] at h3 h4
    refine ⟨h3, fun hw => ?_⟩
    show (((Hold.stageAll (Hold.stageHold g e).1 l').2 && (Hold.stageHold g e).2) = true) ↔ _
    rw [Bool.and_eq_true]
    constructor
    · rintro ⟨ha, hfirst⟩
      exact (h4 ((h2 hw).mp hfirst)).mp ha
    · intro hfit
      have hrest : Within limit ((l ++ [e]) ++ l') := by simpa using hfit
      have hpart : Within limit (l ++ [e]) := hrest.of_append
      exact ⟨(h4 hpart).mpr hfit, (h2 hw).mpr hpart⟩

/-! ### What a task holds -/

/-- Entry `e` of a member's table is a live capability of `type` on `obj`. -/
def Objects.Has (o : Objects) (t : TaskId) (type : CapType) (obj : Nat) : Prop :=
  ∃ th ∈ o.members t, ∃ e < (o.k.thr th).caps.width,
    ((o.k.thr th).caps.slots e).type = type ∧ o.capObj ((o.k.thr th).caps.slots e) = some obj

/-- A live slot an object of `type` stands for: its own, and for an interrupt binding that of its notification. -/
def Objects.Names (o : Objects) (type : CapType) (obj : Nat) (h : Held) (i : Nat) : Prop :=
  heldOf type = some h ∧ (o.pool h).liveIndex obj = some i ∨
    type = .irq ∧ h = .notify ∧ ∃ b, o.irqs.liveIndex obj = some b ∧ o.irqNotify b = some i

/-- The members of `t` hold slot `i`, through a capability, a thread binding or an interrupt binding. -/
def Objects.Holds (o : Objects) (t : TaskId) (h : Held) (i : Nat) : Prop :=
  (∃ type obj, o.Has t type obj ∧ o.Names type obj h i) ∨
    ∃ th ∈ o.members t, ∃ obj, (o.k.thr th).notifyBound = some obj ∧ o.Names .notify obj h i

/-- The distinct live slots of a kind the members of `t` hold. -/
noncomputable def Objects.holdings (o : Objects) (t : TaskId) (h : Held) : Finset Nat :=
  open Classical in (Finset.range (o.pool h).count).filter fun i => (o.pool h).Live i ∧ o.Holds t h i

/-- The slots a spawn into `t` adds: those of its grants, and the standard output seat. -/
noncomputable def Objects.granted (o : Objects) (t : TaskId) (grants : List (CapType × Nat)) (h : Held) : Finset Nat :=
  open Classical in (Finset.range (o.pool h).count).filter fun i => (o.pool h).Live i ∧
    ((∃ e ∈ grants, o.Names e.1 e.2 h i) ∨ ∃ obj, o.k.stdoutSeatFor (some t) = some obj ∧ o.Names .endpoint obj h i)

theorem liveIndex_live {p : Pool} {obj : Nat} (hp : p.liveIndex obj = some i) : i < p.count ∧ p.Live i := by
  unfold Pool.liveIndex at hp
  dsimp only at hp
  split_ifs at hp with hl
  cases hp
  exact ⟨hl.1, hl.2.1⟩

theorem Objects.Names.live {type : CapType} {obj : Nat} (hn : o.Names type obj h i) :
    i < (o.pool h).count ∧ (o.pool h).Live i := by
  rcases hn with ⟨-, hp⟩ | ⟨-, rfl, b, hb, hn⟩
  · exact liveIndex_live hp
  · exact o.attached b i (liveIndex_live hb).2 hn

theorem mem_objectSlots {type : CapType} {obj : Option Nat} :
    (h, some i) ∈ o.objectSlots type obj ↔ ∃ k, obj = some k ∧ o.Names type k h i := by
  rcases obj with _ | obj
  · cases type <;> simp [Objects.objectSlots, heldOf]
  · have hcomm : ∀ a : Option Nat, some i = a ↔ a = some i := fun a => eq_comm
    cases type <;> cases h <;> simp [Objects.objectSlots, heldOf, Objects.Names, Objects.heldLiveIndex,
      Objects.bindingNotifySlot, Objects.pool, hcomm, Option.bind_eq_some_iff]

theorem bounded_objectSlots (type : CapType) (obj : Option Nat) :
    Bounded (fun h => (o.pool h).count) (o.objectSlots type obj) := fun h i hm => by
  obtain ⟨k, -, hn⟩ := mem_objectSlots.mp hm
  exact hn.live.1

theorem mem_entrySlots {th : Tid} {unseated : Option Nat} {e : Nat} (hm : (h, some i) ∈ o.entrySlots th unseated e) :
    ∃ obj, o.capObj ((o.k.thr th).caps.slots e) = some obj ∧ o.Names ((o.k.thr th).caps.slots e).type obj h i := by
  unfold Objects.entrySlots at hm
  dsimp only at hm
  split_ifs at hm
  · cases hm
  · exact mem_objectSlots.mp hm

theorem mem_memberSlots {th : Tid} {unseated : Option Nat} : (h, some i) ∈ o.memberSlots unseated th ↔
    (∃ obj, (o.k.thr th).notifyBound = some obj ∧ o.Names .notify obj h i) ∨
      ∃ e < (o.k.thr th).caps.width, (h, some i) ∈ o.entrySlots th unseated e := by
  unfold Objects.memberSlots
  rw [List.mem_append, List.mem_flatMap]
  refine or_congr ?_ ⟨?_, ?_⟩
  · rcases (o.k.thr th).notifyBound with _ | obj
    · simp
    · simp [mem_objectSlots]
  · rintro ⟨e, he, hm⟩
    exact ⟨e, List.mem_range.mp he, hm⟩
  · rintro ⟨e, he, hm⟩
    exact ⟨e, List.mem_range.mpr he, hm⟩

theorem bounded_taskSlots (unseated : Option Nat) : Bounded (fun h => (o.pool h).count) (o.taskSlots t unseated) := by
  intro h i hm
  obtain ⟨th, -, hm⟩ := List.mem_flatMap.mp hm
  rcases mem_memberSlots.mp hm with ⟨obj, -, hn⟩ | ⟨e, -, hm⟩
  · exact hn.live.1
  · obtain ⟨obj, -, hn⟩ := mem_entrySlots hm
    exact hn.live.1

theorem mem_taskSlots : (h, some i) ∈ o.taskSlots t none ↔ o.Holds t h i := by
  have hentry : ∀ th e, (h, some i) ∈ o.entrySlots th none e ↔ ∃ obj,
      o.capObj ((o.k.thr th).caps.slots e) = some obj ∧ o.Names ((o.k.thr th).caps.slots e).type obj h i := fun th e => by
    refine ⟨mem_entrySlots, fun hm => ?_⟩
    obtain ⟨obj, hobj, hn⟩ := hm
    unfold Objects.entrySlots
    rw [if_neg (by simp [hobj])]
    exact mem_objectSlots.mpr ⟨obj, hobj, hn⟩
  unfold Objects.taskSlots
  rw [List.mem_flatMap]
  constructor
  · rintro ⟨th, hth, hm⟩
    rcases mem_memberSlots.mp hm with ⟨obj, hb, hn⟩ | ⟨e, he, hm⟩
    · exact .inr ⟨th, hth, obj, hb, hn⟩
    · obtain ⟨obj, hobj, hn⟩ := (hentry th e).mp hm
      exact .inl ⟨_, obj, ⟨th, hth, e, he, rfl, hobj⟩, hn⟩
  · rintro (⟨type, obj, ⟨th, hth, e, he, rfl, hobj⟩, hn⟩ | ⟨th, hth, obj, hb, hn⟩)
    · exact ⟨th, hth, mem_memberSlots.mpr (.inr ⟨e, he, (hentry th e).mpr ⟨obj, hobj, hn⟩⟩)⟩
    · exact ⟨th, hth, mem_memberSlots.mpr (.inl ⟨obj, hb, hn⟩)⟩

theorem Objects.Holds.live (hh : o.Holds t h i) : i < (o.pool h).count ∧ (o.pool h).Live i := by
  rcases hh with ⟨_, _, -, hn⟩ | ⟨_, -, _, -, hn⟩
  · exact hn.live
  · exact hn.live

theorem items_taskSlots : items (named (o.taskSlots t none)) h = o.holdings t h := by
  ext i
  rw [mem_items, mem_named, mem_taskSlots]
  simp only [Objects.holdings, Finset.mem_filter, Finset.mem_range]
  exact ⟨fun hh => ⟨hh.live.1, hh.live.2, hh⟩, fun hh => hh.2.2⟩

/-! ### The derivations -/

structure Inv (x : Sys) : Prop where
  width : ∀ h, x.count h ≤ 65534
  aging : Aging x.count x.marks

theorem Inv.derive (hx : Inv x) (t : TaskId) (unseated : Option Nat) :
    Staged x.count (x.o.budget t) (x.o.taskSlots t unseated) (x.derive t unseated) :=
  ((Staged.begin hx.aging hx.width (x.o.budget t)).stageAll (bounded_taskSlots unseated)).1

theorem Staged.stageGrants (hs : Staged (fun h => (o.pool h).count) limit l g) (grants : List (CapType × Nat)) :
    Aging (fun h => (o.pool h).count) (stageGrants o g grants).1.marks ∧
      (Within limit l → ((Hold.stageGrants o g grants).2 = true ↔
        Within limit (l ++ grants.flatMap fun e => o.objectSlots e.1 (some e.2)))) := by
  induction grants generalizing l g with
  | nil =>
    rw [List.flatMap_nil, List.append_nil]
    exact ⟨hs.aging, fun hw => iff_of_true rfl hw⟩
  | cons e grants ih =>
    obtain ⟨type, obj⟩ := e
    obtain ⟨h1, h2⟩ := hs.stageAll (bounded_objectSlots type (some obj))
    unfold Hold.stageGrants
    rw [List.flatMap_cons, ← List.append_assoc]
    rcases hres : Hold.stageAll g (o.objectSlots type (some obj)) with ⟨g', ok⟩
    rw [hres] at h1 h2
    rcases ok with _ | _
    · refine ⟨h1.aging, fun hw => iff_of_false (by simp) fun hfit => ?_⟩
      exact absurd ((h2 hw).mpr hfit.of_append) (by simp)
    · obtain ⟨h3, h4⟩ := ih h1
      exact ⟨h3, fun hw => h4 ((h2 hw).mp rfl)⟩

theorem Inv.usage (hx : Inv x) (t : Option TaskId) (kind : Held) : Inv (x.taskObjectUsage t kind).1 := by
  rcases t with _ | t
  · exact hx
  · exact ⟨hx.width, (hx.derive t none).aging⟩

theorem Inv.seated (hx : Inv x) (t : TaskId) (seat : Nat) :
    Staged x.count (x.o.budget t) (x.o.taskSlots t none ++ [(.endpoint, x.o.heldLiveIndex .endpoint seat)])
      (stageHold (x.derive t none) (.endpoint, x.o.heldLiveIndex .endpoint seat)).1 ∧
    (Within (x.o.budget t) (x.o.taskSlots t none) →
      ((stageHold (x.derive t none) (.endpoint, x.o.heldLiveIndex .endpoint seat)).2 = true ↔
        Within (x.o.budget t) (x.o.taskSlots t none ++ [(.endpoint, x.o.heldLiveIndex .endpoint seat)]))) :=
  (hx.derive t none).stageHold _ fun _ hi => (liveIndex_live hi).1

/-- The slots an admission stages behind the holdings. -/
def Objects.addedSlots (o : Objects) (t : TaskId) (grants : List (CapType × Nat)) : List (Held × Option Nat) :=
  (match o.k.stdoutSeatFor (some t) with
    | none => []
    | some obj => [(.endpoint, o.heldLiveIndex .endpoint obj)]) ++
  grants.flatMap fun e => o.objectSlots e.1 (some e.2)

theorem Inv.grants (hx : Inv x) (t : TaskId) (grants : List (CapType × Nat)) :
    Inv (x.taskObjectAdmitGrants (some t) grants).1 ∧ (Within (x.o.budget t) (x.o.taskSlots t none) →
      ((x.taskObjectAdmitGrants (some t) grants).2 = true ↔
        Within (x.o.budget t) (x.o.taskSlots t none ++ x.o.addedSlots t grants))) := by
  unfold Sys.taskObjectAdmitGrants Objects.addedSlots
  dsimp only
  rcases hseat : x.o.k.stdoutSeatFor (some t) with _ | seat
  · by_cases hnil : grants = []
    · rw [if_pos ⟨hnil, rfl⟩]
      subst hnil
      exact ⟨hx, fun hw => iff_of_true rfl (by simpa using hw)⟩
    · rw [if_neg (by simp [hnil])]
      obtain ⟨h1, h2⟩ := (hx.derive t none).stageGrants grants
      rw [if_neg (by simp)]
      exact ⟨⟨hx.width, h1⟩, fun hw => by simpa using h2 hw⟩
  · rw [if_neg (by simp)]
    obtain ⟨h1, h2⟩ := hx.seated t seat
    rcases hres : stageHold (x.derive t none) (.endpoint, x.o.heldLiveIndex .endpoint seat) with ⟨g, ok⟩
    rw [hres] at h1 h2
    rcases ok with _ | _
    · simp only [hres, ↓reduceIte]
      refine ⟨⟨hx.width, h1.aging⟩, fun hw => iff_of_false (by simp) fun hfit => ?_⟩
      rw [← List.append_assoc] at hfit
      exact absurd ((h2 hw).mpr hfit.of_append) (by simp)
    · simp only [hres, Bool.true_eq_false, ↓reduceIte]
      obtain ⟨h3, h4⟩ := h1.stageGrants grants
      rw [← List.append_assoc]
      exact ⟨⟨hx.width, h3⟩, fun hw => h4 ((h2 hw).mp rfl)⟩

theorem Step.inv (hs : Step x y) (hx : Inv x) : Inv y := by
  cases hs with
  | world o hw =>
    have hcount : ({ x with o := o } : Sys).count = x.count := funext hw
    exact ⟨fun h => (hw h).trans_le (hx.width h), by rw [hcount]; exact hx.aging⟩
  | usage t kind => exact hx.usage t kind
  | grants t grants =>
    rcases t with _ | t
    · exact hx
    · exact (hx.grants t grants).1
  | swap t was seat =>
    rcases t with _ | t
    · exact hx
    · have h1 := (hx.derive t (some was)).stageHold (.endpoint, x.o.heldLiveIndex .endpoint seat) fun _ hi =>
        (liveIndex_live hi).1
      exact ⟨hx.width, h1.1.aging⟩
  | binding b handle n t hn =>
    have h1 := hx.derive t none
    have h2 := h1.stageHold (.notify, some n) fun i hi => by
      cases hi
      exact (liveIndex_live hn).1
    unfold Sys.bindingNotifyRound
    dsimp only
    split_ifs
    · exact hx
    · exact ⟨hx.width, h1.aging⟩
    · exact ⟨hx.width, h2.1.aging⟩

theorem Reachable.inv (h : Reachable x) : Inv x := by
  induction h with
  | boot o hw =>
    refine ⟨hw, ⟨Nat.zero_le _, ?_, fun _ _ _ => .inl rfl, fun _ _ _ => rfl⟩⟩
    show 0 < period _
    unfold period
    omega
  | step x y _ hs ih => exact hs.inv ih

theorem items_addedSlots {grants : List (CapType × Nat)} : items (named (o.addedSlots t grants)) h = o.granted t grants h := by
  ext i
  rw [mem_items, mem_named]
  simp only [Objects.granted, Finset.mem_filter, Finset.mem_range, Objects.addedSlots, List.mem_append, List.mem_flatMap,
    mem_objectSlots, Option.some.injEq, exists_eq_left']
  have hseat : ∀ seat, (h, some i) ∈ [(Held.endpoint, o.heldLiveIndex .endpoint seat)] ↔ o.Names .endpoint seat h i :=
    fun seat => by
      have hobj : o.objectSlots .endpoint (some seat) = [(.endpoint, o.heldLiveIndex .endpoint seat)] := rfl
      rw [← hobj, mem_objectSlots]
      simp
  rcases hs : o.k.stdoutSeatFor (some t) with _ | seat
  · simp only [List.not_mem_nil, false_or, reduceCtorEq, false_and, exists_false, or_false]
    constructor
    · rintro ⟨e, he, hn⟩
      exact ⟨hn.live.1, hn.live.2, e, he, hn⟩
    · exact fun hh => hh.2.2
  · simp only [hseat, Option.some.injEq, exists_eq_left']
    constructor
    · rintro (hn | ⟨e, he, hn⟩)
      · exact ⟨hn.live.1, hn.live.2, .inr hn⟩
      · exact ⟨hn.live.1, hn.live.2, .inl ⟨e, he, hn⟩⟩
    · rintro ⟨-, -, he | hn⟩
      · exact .inr he
      · exact .inl hn

/-- One thread with two capabilities on one endpoint, of a task that may hold one. -/
def soleHolder : Objects where
  k :=
    { count := 1
      thr := fun t =>
        if t = 0 then { caps := { width := 3, slots := fun e => if e = 0 then {} else { type := .endpoint } } } else {}
      endpoints := { count := 2, fresh := 1 } }
  irqs := {}
  irqNotify := fun _ => none
  members := fun t => if t = 0 then [0] else []
  budget := fun _ _ => 1
  attached := fun _ _ hb => absurd hb.1 (Nat.not_lt_zero _)

end Hold
end KickOS
