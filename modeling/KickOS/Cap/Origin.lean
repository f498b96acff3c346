import KickOS.Cap.Run
import KickOS.Cap.Message

/-! Where the capabilities behind an operation come from.

`Less` is what an operation that makes no capability does: each endpoint capability it leaves was there before, with
the same badge on the same object, unless it is the standard output seat of `seat`; no endpoint is born, and every
message keeps its badge. Closing, narrowing, exits and the counters are steps of this kind, and so are sends and
receives, but for the badge of the message a sender parks. -/

namespace KickOS
namespace Cap
open CapTable

variable {s s' s'' : Kernel} {t c u : Tid} {i j obj badge gen : Nat} {e : Eid} {x x₀ : CapEntry} {seat : Option Nat}
  {type : CapType} {rights : Rights}

def Tabled (s : Kernel) : Prop := ∀ t, ∃ q, FreeList (s.thr t).caps q

/-- `x` is the capability `x₀` was, on the same object and with the same badge; without the handout right it received
no right to wait. -/
structure Copies (x₀ x : CapEntry) : Prop where
  type : x.type = x₀.type
  obj : x.obj = x₀.obj
  objGen : x.objGen = x₀.objGen
  badge : x.badge = x₀.badge
  handout : x.rights.handout = true → x₀.rights.handout = true
  wait : x₀.rights.handout = false → x.rights.wait = true → x₀.rights.wait = true

theorem Copies.refl (x : CapEntry) : Copies x x := ⟨rfl, rfl, rfl, rfl, id, fun _ h => h⟩

theorem Copies.trans {x₁ : CapEntry} (h : Copies x₀ x₁) (h' : Copies x₁ x) : Copies x₀ x where
  type := h'.type.trans h.type
  obj := h'.obj.trans h.obj
  objGen := h'.objGen.trans h.objGen
  badge := h'.badge.trans h.badge
  handout hx := h.handout (h'.handout hx)
  wait h0 hx := by
    refine h.wait h0 (h'.wait ?_ hx)
    exact Bool.eq_false_iff.mpr fun h1 => Bool.eq_false_iff.mp h0 (h.handout h1)

/-- No slot of the pool comes to life, and a live one keeps its generation. -/
structure Shrinks (p p' : Pool) : Prop where
  count : p'.count = p.count
  live : ∀ i, p'.Live i → p.Live i ∧ p'.gen i = p.gen i
  free : ∀ i ∈ p'.free, i ∈ p.free ∨ i < p.count

theorem Shrinks.refl (p : Pool) : Shrinks p p := ⟨rfl, fun _ h => ⟨h, rfl⟩, fun _ h => .inl h⟩

theorem Shrinks.trans {p p' p'' : Pool} (h : Shrinks p p') (h' : Shrinks p' p'') : Shrinks p p'' := by
  refine ⟨h'.count.trans h.count, fun i hi => ?_, fun i hi => ?_⟩
  · obtain ⟨h1, h2⟩ := h'.live i hi
    obtain ⟨h3, h4⟩ := h.live i h1
    exact ⟨h3, h2.trans h4⟩
  · rcases h'.free i hi with h1 | h1
    · exact h.free i h1
    · exact .inr (h.count ▸ h1)

theorem Shrinks.liveIndex {p p' : Pool} {h i : Nat} (hs : Shrinks p p') (hl : p'.liveIndex h = some i) :
    p.liveIndex h = some i ∧ p'.generation h = p.generation h := by
  unfold Pool.liveIndex at hl ⊢
  dsimp only at hl ⊢
  split_ifs at hl with hc
  obtain ⟨h1, h2, h3⟩ := hc
  obtain ⟨h4, h5⟩ := hs.live _ h2
  rw [hs.count] at h1
  rw [h5] at h3
  refine ⟨by rw [if_pos ⟨h1, h4, h3⟩]; exact hl, ?_⟩
  simp only [Pool.generation, hs.count, h5]

theorem Shrinks.setRefs {p : Pool} {n : Nat} : Shrinks p (p.setRefs i n) :=
  ⟨rfl, fun _ h => ⟨h, rfl⟩, fun _ h => .inl h⟩

theorem Shrinks.release {p : Pool} {h : Nat} : Shrinks p (p.release h) := by
  unfold Pool.release
  split
  · exact .refl p
  · rename_i k hk
    refine ⟨rfl, fun i hi => ?_, fun i hi => ?_⟩
    · obtain ⟨h1, h2⟩ := hi
      have h3 : i ≠ k := fun h => h2 (List.mem_append_right _ (by simp [h]))
      exact ⟨⟨h1, fun h => h2 (List.mem_append_left _ h)⟩, Function.update_of_ne h3 _ _⟩
    · rcases List.mem_append.mp hi with h1 | h1
      · exact .inl h1
      · obtain rfl := List.mem_singleton.mp h1
        unfold Pool.liveIndex at hk
        dsimp only at hk
        split_ifs at hk with hc
        cases hk
        exact .inr hc.1

/-- The tables, the badges of the messages and the published console stay, and no endpoint is born. -/
structure Kept (s s' : Kernel) : Prop where
  caps : ∀ t, (s'.thr t).caps = (s.thr t).caps
  badge : ∀ t, (s'.thr t).ipc.badge = (s.thr t).ipc.badge
  pool : Shrinks s.endpoints s'.endpoints
  stdout : s'.stdoutTarget = s.stdoutTarget

theorem Kept.refl (s : Kernel) : Kept s s := ⟨fun _ => rfl, fun _ => rfl, .refl _, rfl⟩

theorem Kept.trans (h : Kept s s') (h' : Kept s' s'') : Kept s s'' :=
  ⟨fun t => (h'.caps t).trans (h.caps t), fun t => (h'.badge t).trans (h.badge t), h.pool.trans h'.pool, h'.stdout.trans h.stdout⟩

theorem Kept.of_tables (h : s'.tables = s.tables) : Kept s s' :=
  ⟨Kernel.caps_of_tables h, Kernel.badge_of_tables h, by rw [Kernel.endpoints_of_tables h]; exact .refl _,
    Kernel.stdoutTarget_of_tables h⟩

theorem Kept.onEp {f : Endpoint → Endpoint} : Kept s (s.onEp e f) := ⟨fun _ => rfl, fun _ => rfl, .refl _, rfl⟩

theorem Kept.ite {p : Prop} [Decidable p] {a b : Kernel} (ha : Kept s a) (hb : Kept s b) : Kept s (if p then a else b) := by
  split_ifs
  · exact ha
  · exact hb

theorem Kept.holding (h : Kept s s') : s'.holding = s.holding := by
  funext t i
  simp only [Kernel.holding, h.caps]

/-- What a step does that makes no capability, but for the standard output seats on `seat`. -/
structure Less (seat : Option Nat) (s s' : Kernel) : Prop where
  tabled : Tabled s'
  pool : Shrinks s.endpoints s'.endpoints
  entry : ∀ t i x, s'.holding t i = some x → x.type = .endpoint →
    (∃ x₀, s.holding t i = some x₀ ∧ Copies x₀ x) ∨ (x.badge = kcapBadgeNone ∧ seat = some x.obj)
  badge : ∀ t, (s'.thr t).ipc.badge = (s.thr t).ipc.badge

theorem Less.refl (h : Tabled s) : Less seat s s :=
  ⟨h, .refl _, fun _ _ x hx _ => .inl ⟨x, hx, .refl x⟩, fun _ => rfl⟩

theorem Less.trans (h : Less seat s s') (h' : Less seat s' s'') : Less seat s s'' := by
  refine ⟨h'.tabled, h.pool.trans h'.pool, fun t i x hx hty => ?_, fun t => (h'.badge t).trans (h.badge t)⟩
  rcases h'.entry t i x hx hty with ⟨x₁, hx₁, hc⟩ | hseat
  · rcases h.entry t i x₁ hx₁ (hc.type ▸ hty) with ⟨x₀, hx₀, hc₀⟩ | ⟨hb, hs⟩
    · exact .inl ⟨x₀, hx₀, hc₀.trans hc⟩
    · exact .inr ⟨hc.badge.trans hb, hs.trans (congrArg some hc.obj.symm)⟩
  · exact .inr hseat

theorem Less.of_kept (ht : Tabled s) (h : Kept s s') : Less seat s s' := by
  refine ⟨fun t => by rw [h.caps]; exact ht t, h.pool, fun t i x hx _ => ?_, h.badge⟩
  rw [h.holding] at hx
  exact .inl ⟨x, hx, .refl x⟩

/-! ### Writes to one table -/

theorem Less.of_table {f : CapTable} (ht : Tabled s) (hp : Shrinks s.endpoints s'.endpoints)
    (h : ∀ t, (s'.thr t).caps = if t = c then f else (s.thr t).caps)
    (hb : ∀ t, (s'.thr t).ipc.badge = (s.thr t).ipc.badge) (hf : ∃ q, FreeList f q)
    (he : ∀ i x, i < f.width → f.live i = some x → x.type = .endpoint →
      (∃ x₀, s.holding c i = some x₀ ∧ Copies x₀ x) ∨ (x.badge = kcapBadgeNone ∧ seat = some x.obj)) : Less seat s s' := by
  refine ⟨fun t => ?_, hp, fun t i x hx hty => ?_, hb⟩
  · rw [h]
    split_ifs
    · exact hf
    · exact ht t
  · unfold Kernel.holding at hx
    rw [h] at hx
    by_cases hc : t = c
    · subst hc
      rw [if_pos rfl] at hx
      split_ifs at hx with hw
      exact he i x hw hx hty
    · rw [if_neg hc] at hx
      exact .inl ⟨x, hx, .refl x⟩

theorem onCaps_caps {f : CapTable → CapTable} (t : Tid) :
    ((s.onCaps c f).thr t).caps = if t = c then f (s.thr c).caps else (s.thr t).caps := by
  by_cases hc : t = c
  · subst hc; simp [Kernel.onCaps, Kernel.onThr, Kernel.setThr]
  · simp [Kernel.onCaps, Kernel.onThr, Kernel.setThr, hc]

theorem onCaps_badge {f : CapTable → CapTable} (t : Tid) : ((s.onCaps c f).thr t).ipc.badge = (s.thr t).ipc.badge := by
  by_cases hc : t = c
  · subst hc; simp [Kernel.onCaps, Kernel.onThr, Kernel.setThr]
  · simp [Kernel.onCaps, Kernel.onThr, Kernel.setThr, hc]

theorem live_some (h : (s.thr t).caps.live i = some x) : (s.thr t).caps.slots i = x ∧ x.type ≠ .empty := by
  unfold CapTable.live at h
  split_ifs at h with hty
  rw [Option.some.injEq] at h
  subst h
  exact ⟨rfl, hty⟩

theorem holding_some_iff : s.holding t i = some x ↔
    i < (s.thr t).caps.width ∧ (s.thr t).caps.slots i = x ∧ x.type ≠ .empty := by
  constructor
  · intro h
    unfold Kernel.holding at h
    split_ifs at h with hw
    exact ⟨hw, live_some h⟩
  · rintro ⟨h1, rfl, h3⟩
    simp [Kernel.holding, h1, CapTable.live, h3]

theorem Less.slotVacate (ht : Tabled s) (h : s.holding c i = some x) : Less seat s (s.slotVacate c i) := by
  obtain ⟨hw, hx, hty⟩ := holding_some_iff.mp h
  obtain ⟨q, hq⟩ := ht c
  have hlive : ((s.thr c).caps.slots i).type ≠ .empty := by rw [hx]; exact hty
  refine .of_table ht (.refl _) onCaps_caps onCaps_badge ⟨_, hq.vacate hw hlive⟩ fun j y hj hy _ => .inl ⟨y, ?_, .refl y⟩
  rw [hq.vacate_live hw hlive] at hy
  rw [vacate_width] at hj
  by_cases hji : j = i
  · subst hji; simp at hy
  · rw [Function.update_of_ne hji] at hy
    simp only [Kernel.holding, if_pos hj, hy]

theorem freeList_mapSlot {t : CapTable} {q : List Nat} {f : CapEntry → CapEntry} (h : FreeList t q)
    (hi : i < capFirstDynamic ∨ ((t.slots i).type ≠ .empty ∧ (f (t.slots i)).type ≠ .empty)) :
    FreeList (t.mapSlot i f) q := by
  have hq : i ∉ q := by
    intro hm
    obtain ⟨h1, -, h3⟩ := (h.mem i).1 hm
    rcases hi with hi | ⟨hi, -⟩
    · omega
    · exact hi h3
  refine h.of_frame rfl rfl (fun j hj => ?_) fun j hj => ?_
  · have hji : j ≠ i := fun heq => hq (heq ▸ hj)
    rw [mapSlot_slots_ne hji]
  · by_cases hji : j = i
    · subst hji
      rcases hi with hi | ⟨hi, hf⟩
      · omega
      · simp [mapSlot, setSlot, hi, hf]
    · rw [mapSlot_slots_ne hji]

theorem Less.mapSlot {f : CapEntry → CapEntry} (ht : Tabled s) (h : s.holding c i = some x)
    (hf : Copies x (f x)) : Less seat s (s.onCaps c fun t => t.mapSlot i f) := by
  obtain ⟨hw, hx, hty⟩ := holding_some_iff.mp h
  obtain ⟨q, hq⟩ := ht c
  subst hx
  refine .of_table ht (.refl _) onCaps_caps onCaps_badge ⟨q, freeList_mapSlot hq (.inr ⟨hty, by rw [hf.type]; exact hty⟩)⟩
    fun j y hj hy _ => .inl ?_
  by_cases hji : j = i
  · subst hji
    have hy' : y = f ((s.thr c).caps.slots j) := by
      simp only [CapTable.live, CapTable.mapSlot, setSlot, Function.update_self, hf.type, hty, if_false,
        Option.some.injEq] at hy
      exact hy.symm
    exact ⟨_, h, hy' ▸ hf⟩
  · refine ⟨y, ?_, .refl y⟩
    have hy' : (s.thr c).caps.live j = some y := by
      simpa only [CapTable.live, mapSlot_slots_ne hji] using hy
    simp only [Kernel.holding, if_pos (show j < (s.thr c).caps.width from hj), hy']

/-! ### The counters -/

theorem Kept.objRefInc (h : s.objRefInc type obj rights = some s') : Kept s s' := by
  unfold Kernel.objRefInc at h
  split at h
  · split at h
    · cases h
      exact .refl s
    · split_ifs at h
      cases h
      exact ⟨fun _ => rfl, fun _ => rfl, .setRefs, rfl⟩
  · split at h
    · cases h
      exact .refl s
    · split_ifs at h
      cases h
      exact ⟨fun _ => rfl, fun _ => rfl, .refl _, rfl⟩
  · cases h
    exact .refl s

theorem Kept.objRefUndo : Kept s (s.objRefUndo type obj rights) := by
  unfold Kernel.objRefUndo
  split
  · split
    · exact .refl s
    · exact ⟨fun _ => rfl, fun _ => rfl, .setRefs, rfl⟩
  · split
    · exact .refl s
    · exact ⟨fun _ => rfl, fun _ => rfl, .refl _, rfl⟩
  · exact .refl s

theorem Kept.endpointRefDrop {teardown : Bool} : Kept s (s.endpointRefDrop obj teardown) := by
  unfold Kernel.endpointRefDrop
  split
  · exact .refl s
  · dsimp only
    split_ifs
    · exact ⟨fun _ => rfl, fun _ => rfl, .setRefs, rfl⟩
    · exact ⟨fun _ => rfl, fun _ => rfl, Shrinks.setRefs.trans .setRefs, rfl⟩
    · exact ⟨fun _ => rfl, fun _ => rfl, Shrinks.setRefs.trans .release, rfl⟩

theorem Kept.objRefDrop {teardown : Bool} : Kept s (s.objRefDrop x teardown) := by
  unfold Kernel.objRefDrop
  split
  · split
    · exact .refl s
    · exact .endpointRefDrop
  · split
    · exact .refl s
    · exact .of_tables Kernel.notifyRefDrop_tables
  · exact .of_tables Kernel.assert_tables
  all_goals exact .refl s

/-! ### Closing and narrowing -/

theorem Kept.dropReceiver : Kept s (s.dropReceiver e) := by
  unfold Kernel.dropReceiver
  dsimp only
  split_ifs
  · exact .refl s
  · exact .onEp
  · exact Kept.onEp.trans .onEp
  · exact (Kept.onEp.trans .onEp).trans (.of_tables Kernel.refuseSenders_tables)

theorem Kept.endpointRightsDropped {dropped : Rights} {o : Option Nat} {teardown : Bool} :
    Kept s (s.endpointRightsDropped c o dropped teardown) := by
  have hd : ∀ (k : Kernel) (e : Eid), Kept k ((k.dropServer c e teardown).dropReceiver e) := fun k e =>
    (Kept.of_tables Kernel.dropServer_tables).trans .dropReceiver
  have hh : ∀ e : Eid, Kept s (if dropped.handout then s.onEp e fun x =>
      { x with handoutHolders := x.handoutHolders - 1 } else s) := fun e => .ite .onEp (.refl s)
  unfold Kernel.endpointRightsDropped
  split
  · exact .refl s
  · exact .ite (hh _) ((hh _).trans (hd _ _))

theorem Kept.objCloseProtocol {teardown : Bool} : Kept s (s.objCloseProtocol c x teardown) := by
  unfold Kernel.objCloseProtocol
  split
  · exact .endpointRightsDropped
  · exact .of_tables Kernel.closeReply_tables
  all_goals exact .refl s

theorem Less.closeEntry {teardown : Bool} (ht : Tabled s) (h : s.holding c i = some x) :
    Less seat s (s.closeEntry c i teardown) := by
  unfold Kernel.closeEntry
  have hk : Kept s (s.objCloseProtocol c ((s.thr c).caps.slots i) teardown) := .objCloseProtocol
  have h1 : Less seat s _ := .of_kept ht hk
  have h2 := h1.trans (.slotVacate h1.tabled (by rw [hk.holding]; exact h))
  exact h2.trans (.of_kept h2.tabled .objRefDrop)

theorem capLookup_holding {cap : Nat} (h : capLookup (s.thr c).caps cap = some i) :
    s.holding c i = some ((s.thr c).caps.slots i) := by
  unfold capLookup at h
  dsimp only at h
  split_ifs at h with h1 h2 h3
  cases h
  exact holding_some_iff.mpr ⟨Nat.not_le.mp h1, rfl, h2⟩

theorem Less.handleClose {cap : Nat} (ht : Tabled s) : Less seat s (s.handleClose c cap).1 := by
  unfold Kernel.handleClose
  split
  · exact .refl ht
  · rename_i idx hidx
    split_ifs
    · exact .refl ht
    · exact .closeEntry ht (capLookup_holding hidx)

theorem Less.capNarrow {cap : Nat} {mask : Rights} (ht : Tabled s) : Less seat s (s.capNarrow c cap mask).1 := by
  unfold Kernel.capNarrow
  split
  · exact .refl ht
  · rename_i idx hidx
    have hc : Copies ((s.thr c).caps.slots idx)
        { (s.thr c).caps.slots idx with rights := ((s.thr c).caps.slots idx).rights.inter mask } :=
      ⟨rfl, rfl, rfl, rfl, fun h => (Bool.and_eq_true_iff.mp h).1, fun _ h => (Bool.and_eq_true_iff.mp h).1⟩
    have h1 : Less seat s (s.onCaps c fun t => t.mapSlot idx fun e =>
        { e with rights := ((s.thr c).caps.slots idx).rights.inter mask }) := .mapSlot ht (capLookup_holding hidx) hc
    dsimp only
    split_ifs
    · exact .refl ht
    · exact h1.trans (.of_kept h1.tabled .endpointRightsDropped)
    · exact h1

/-! ### Exits -/

theorem Less.teardownFrom (close : CapEntry → Bool) (fuel i : Nat) (s : Kernel) (ht : Tabled s) :
    Less seat s (Kernel.teardownFrom c close fuel i s) := by
  induction fuel generalizing i s with
  | zero => exact .refl ht
  | succ fuel ih =>
    unfold Kernel.teardownFrom
    split_ifs with hc
    · have h1 : Less seat s (s.closeEntry c i true) := .closeEntry ht (holding_some_iff.mpr ⟨hc.1, rfl, hc.2.1⟩)
      exact h1.trans (ih _ _ h1.tabled)
    · exact ih _ _ ht

theorem freeList_empty : FreeList {} [] where
  head := rfl
  ring := trivial
  nodup := List.nodup_nil
  mem i := by simp
  width := Nat.zero_le _

theorem Kept.onThr {f : Thread → Thread}
    (h : ((f (s.thr t)).caps, (f (s.thr t)).ipc.badge) = ((s.thr t).caps, (s.thr t).ipc.badge)) : Kept s (s.onThr t f) := by
  obtain ⟨h1, h2⟩ := Prod.mk.inj h
  refine ⟨fun u => ?_, fun u => ?_, .refl _, rfl⟩
  · by_cases hu : u = t
    · subst hu; simpa [Kernel.onThr, Kernel.setThr] using h1
    · simp [Kernel.onThr, Kernel.setThr, hu]
  · by_cases hu : u = t
    · subst hu; simpa [Kernel.onThr, Kernel.setThr] using h2
    · simp [Kernel.onThr, Kernel.setThr, hu]

theorem Less.exitSweep {left : Option TaskId} {g : Nat} {swept : Option Nat} (ht : Tabled s) :
    Less seat s (s.exitSweep c left g swept) := by
  unfold Kernel.exitSweep
  split
  · dsimp only
    split_ifs
    · exact .of_kept ht (.onThr rfl)
    · have h1 : Less seat s (Kernel.teardownFrom c (fun e => e.type = .irq) (s.thr c).caps.width 0 s) :=
        .teardownFrom _ _ _ _ ht
      exact h1.trans (.of_kept h1.tabled (.onThr rfl))
  · rename_i i
    have h1 : Less seat s (Kernel.teardownFrom c (fun _ => true) kcapTeardownChunk i s) := .teardownFrom _ _ _ _ ht
    exact h1.trans (.of_kept h1.tabled (.onThr rfl))

theorem retire_kept : Kept s (s.retire c) :=
  (Kept.onThr (f := fun x => { x with state := .exited }) rfl).trans ⟨fun _ => rfl, fun _ => rfl, .refl _, rfl⟩

theorem Less.cleared (ht : Tabled s) :
    Less seat s (s.onThr c fun x => { x with caps := {}, task := none, tail := .none }) := by
  refine .of_table (c := c) (f := {}) ht (.refl _) (fun t => ?_) (fun t => ?_) ⟨[], freeList_empty⟩
    fun i _ hi => absurd hi (Nat.not_lt_zero i)
  all_goals
    by_cases hc : t = c
    · subst hc; simp [Kernel.onThr, Kernel.setThr]
    · simp [Kernel.onThr, Kernel.setThr, hc]

theorem Less.exitFinish {left : Option TaskId} {g : Nat} (ht : Tabled s) : Less seat s (s.exitFinish c left g) := by
  have hend : ∀ (k : Kernel) (dead : Bool), Kept k (Kernel.reschedule
      (if dead then (Kernel.wakeWaitersFrom c left dead k.count 0 k).taskReportDeath left g
        else Kernel.wakeWaitersFrom c left dead k.count 0 k)) := fun k dead =>
    .of_tables (Kernel.reschedule_tables.trans (Kernel.ite_tables
      (Kernel.taskReportDeath_tables.trans (Kernel.wakeWaitersFrom_tables ..)) (Kernel.wakeWaitersFrom_tables ..)))
  have hleave : ∀ (k k' : Kernel), Tabled k →
      k' = (k.onThr c fun x => { x with caps := {}, task := none, tail := .none }).retire c →
      Less seat k (Kernel.reschedule (if (k'.taskSweepDone left g).2 then
        (Kernel.wakeWaitersFrom c left (k'.taskSweepDone left g).2 (k'.taskSweepDone left g).1.count 0
          (k'.taskSweepDone left g).1).taskReportDeath left g
        else Kernel.wakeWaitersFrom c left (k'.taskSweepDone left g).2 (k'.taskSweepDone left g).1.count 0
          (k'.taskSweepDone left g).1)) := by
    rintro k k' hk rfl
    have h1 : Less seat k (k.onThr c fun x => { x with caps := {}, task := none, tail := .none }) := .cleared hk
    exact h1.trans (.of_kept h1.tabled (retire_kept.trans
      ((Kept.of_tables Kernel.taskSweepDone_tables).trans (hend _ _))))
  have hassert : ∀ a₁ a₂ a₃ a₄, Less seat s ((((s.assert a₁).assert a₂).assert a₃).assert a₄) := fun _ _ _ _ =>
    .of_kept ht (.of_tables rfl)
  unfold Kernel.exitFinish
  exact (hassert _ _ _ _).trans (hleave _ _ (hassert _ _ _ _).tabled rfl)

theorem Less.exitCurrent {endsTask : Bool} (ht : Tabled s) : Less seat s (s.exitCurrent c endsTask) := by
  unfold Kernel.exitCurrent
  split
  · exact .exitSweep ht
  · split_ifs
    · exact .exitSweep ht
    · exact .exitFinish ht
  · exact .of_kept ht (.of_tables Kernel.exitBegin_tables)

/-! ### The standard output seat -/

theorem Less.reserved {f : CapEntry → CapEntry} (ht : Tabled s)
    (hf : (f ((s.thr c).caps.slots 0)).type = .endpoint →
      (f ((s.thr c).caps.slots 0)).badge = kcapBadgeNone ∧ seat = some (f ((s.thr c).caps.slots 0)).obj) :
    Less seat s (s.onCaps c fun t => t.mapSlot 0 f) := by
  obtain ⟨q, hq⟩ := ht c
  refine .of_table ht (.refl _) onCaps_caps onCaps_badge ⟨q, freeList_mapSlot hq (.inl (by decide))⟩ fun j y hj hy hty => ?_
  by_cases hji : j = 0
  · subst hji
    have hy' : y = f ((s.thr c).caps.slots 0) := by
      simp only [CapTable.live, CapTable.mapSlot, setSlot, Function.update_self] at hy
      split_ifs at hy
      exact (Option.some.inj hy).symm
    subst hy'
    exact .inr (hf hty)
  · refine .inl ⟨y, ?_, .refl y⟩
    have hy' : (s.thr c).caps.live j = some y := by
      simpa only [CapTable.live, mapSlot_slots_ne hji] using hy
    simp only [Kernel.holding, if_pos (show j < (s.thr c).caps.width from hj), hy']

theorem Less.capSeatStdout {target : Nat} (ht : Tabled s) (h : s.capSeatStdout c target = some s') :
    Less (some target) s s' ∧ s'.stdoutTarget = s.stdoutTarget := by
  unfold Kernel.capSeatStdout at h
  split_ifs at h
  split at h
  · exact absurd h (by simp)
  · rename_i s₁ hinc
    cases h
    have hk := Kept.objRefInc hinc
    have h1 : Less (some target) s s₁ := .of_kept ht hk
    have h2 := h1.trans (.reserved (c := c) (f := fun e => capReplySeqSeat { e with
      obj := target, objGen := s₁.capObjGeneration .endpoint target, type := .endpoint, rights := { signal := true },
      badge := kcapBadgeNone } 0) h1.tabled fun _ => ⟨rfl, rfl⟩)
    split_ifs
    · exact ⟨h2, hk.stdout⟩
    · refine ⟨h2.trans (.of_kept h2.tabled .objRefDrop), Kept.objRefDrop.stdout.trans hk.stdout⟩

theorem Less.capInstallDefaults (ht : Tabled s) :
    Less s.stdoutTarget s (s.capInstallDefaults c) ∧ (s.capInstallDefaults c).stdoutTarget = s.stdoutTarget := by
  unfold Kernel.capInstallDefaults
  split
  · exact ⟨.refl ht, rfl⟩
  · rename_i target htarget
    have hs : s.stdoutTarget = some target := by
      unfold Kernel.stdoutSeatFor at htarget
      split_ifs at htarget
      exact htarget
    rcases hseat : s.capSeatStdout c target with _ | s₁
    · exact ⟨.refl ht, rfl⟩
    · rw [hs]
      obtain ⟨h1, h2⟩ := Less.capSeatStdout ht hseat
      exact ⟨h1, h2.trans hs⟩

theorem Less.stdoutMoveFrom (target : Nat) (admitted : Option TaskId → Bool) (fuel : Nat) (i : Tid) (s : Kernel)
    (ht : Tabled s) : Less (some target) s (Kernel.stdoutMoveFrom target admitted fuel i s) ∧
      (Kernel.stdoutMoveFrom target admitted fuel i s).stdoutTarget = s.stdoutTarget := by
  induction fuel generalizing i s with
  | zero => exact ⟨.refl ht, rfl⟩
  | succ fuel ih =>
    unfold Kernel.stdoutMoveFrom
    split_ifs
    · rcases hseat : s.capSeatStdout i target with _ | s₁
      · exact ih _ _ ht
      · obtain ⟨h1, h2⟩ := Less.capSeatStdout ht hseat
        obtain ⟨h3, h4⟩ := ih (i + 1) s₁ h1.tabled
        exact ⟨h1.trans h3, h4.trans h2⟩
    · exact ih _ _ ht

/-! ### Publishing -/

theorem Less.consoleRetire (obj : Nat) (admitted : Option TaskId → Bool) (ht : Tabled s) :
    Less (some obj) s (s.consoleRetire obj admitted) ∧ (s.consoleRetire obj admitted).stdoutTarget = s.stdoutTarget := by
  unfold Kernel.consoleRetire
  split
  · exact ⟨.refl ht, rfl⟩
  · rename_i old _
    have h1 : Less (some obj) s (s.onEp old fun x => { x with console := .none }) := .of_kept ht .onEp
    dsimp only
    split_ifs
    · exact ⟨h1, rfl⟩
    · obtain ⟨h2, h3⟩ := Less.stdoutMoveFrom obj admitted (s.onEp old fun x => { x with console := .none }).count 0 _
        h1.tabled
      have h4 := h1.trans h2
      exact ⟨h4.trans (.of_kept h4.tabled (.of_tables (Kernel.answerSenders_tables ..))),
        (Kernel.stdoutTarget_of_tables (Kernel.answerSenders_tables ..)).trans h3⟩

theorem Less.capConsolePublish {admitted : Option TaskId → Bool} (ht : Tabled s)
    (h : s.capConsolePublish c obj admitted = some s') : Less (some obj) s s' ∧ s'.stdoutTarget = some obj := by
  unfold Kernel.capConsolePublish at h
  split at h
  · exact absurd h (by simp)
  · rename_i s₁ hinc
    split at h
    · exact absurd h (by simp)
    · rename_i s₂ hseat
      have h1 : Less (some obj) s s₁ := .of_kept ht (.objRefInc hinc)
      have h2 := h1.trans (Less.capSeatStdout h1.tabled hseat).1
      have h3 := h2.trans (Less.consoleRetire obj admitted h2.tabled).1
      have hseat : ∀ k : Kernel, Less (some obj) s k →
          Less (some obj) s { k with stdoutTarget := some obj } ∧ ∀ e, Less (some obj) s
            ({ k with stdoutTarget := some obj }.onEp e fun x => { x with console := .ended }) := fun k hk =>
        ⟨⟨hk.tabled, hk.pool, hk.entry, hk.badge⟩, fun _ => ⟨hk.tabled, hk.pool, hk.entry, hk.badge⟩⟩
      dsimp only at h
      rcases hst : (s₂.consoleRetire obj admitted).stdoutTarget with _ | stale
      · rw [hst] at h
        dsimp only at h
        split at h
        · cases h
          exact ⟨(hseat _ h3).1, rfl⟩
        · cases h
          exact ⟨(hseat _ h3).2 _, rfl⟩
      · have h4 : Less (some obj) s (Kernel.endpointRefDrop _ stale false) := h3.trans (.of_kept h3.tabled .endpointRefDrop)
        rw [hst] at h
        dsimp only at h
        split at h
        · cases h
          exact ⟨(hseat _ h4).1, rfl⟩
        · cases h
          exact ⟨(hseat _ h4).2 _, rfl⟩

theorem Less.unseat (ht : Tabled s) : Less seat s (s.onCaps c fun x =>
    capRunFreeRelease (x.mapSlot 0 fun e => { e with type := .empty, rights := {} }) 0) := by
  have hrel : ∀ x : CapTable, capRunFreeRelease (x.mapSlot 0 fun e => { e with type := .empty, rights := {} }) 0 =
      x.mapSlot 0 fun e => kcapFreeLink { e with type := .empty, rights := {} } kcapFreeNone kcapFreeNone := by
    intro x
    simp [capRunFreeRelease, capFirstDynamic, CapTable.mapSlot, setSlot]
  simp only [hrel]
  exact .reserved ht fun h => absurd h (by simp [kcapFreeLink])

theorem Less.unseatMembersFrom (seat : Option Nat) (k : TaskId) (fuel : Nat) (i : Tid) (s : Kernel) (ht : Tabled s) :
    Less seat s (Kernel.unseatMembersFrom k fuel i s) ∧
      (Kernel.unseatMembersFrom k fuel i s).stdoutTarget = s.stdoutTarget := by
  induction fuel generalizing i s with
  | zero => exact ⟨.refl ht, rfl⟩
  | succ fuel ih =>
    unfold Kernel.unseatMembersFrom
    split_ifs
    · have h1 : Less seat s (s.onCaps i fun x =>
          capRunFreeRelease (x.mapSlot 0 fun e => { e with type := .empty, rights := {} }) 0) := .unseat ht
      have h2 : Less seat s (Kernel.objRefDrop _ ((s.thr i).caps.slots 0) false) := h1.trans (.of_kept h1.tabled .objRefDrop)
      obtain ⟨h3, h4⟩ := ih (i + 1) _ h2.tabled
      exact ⟨h2.trans h3, h4.trans Kept.objRefDrop.stdout⟩
    · exact ih _ _ ht

theorem Less.capConsoleServe (seat : Option Nat) (served : Option TaskId) (ht : Tabled s) :
    Less seat s (s.capConsoleServe served) ∧ (s.capConsoleServe served).stdoutTarget = s.stdoutTarget := by
  unfold Kernel.capConsoleServe
  have h1 : Less seat s (s.taskConsoleServe served) := .of_kept ht (.of_tables rfl)
  dsimp only
  split
  · have h2 : ∀ e : Eid, Less seat s ((s.taskConsoleServe _).onEp e fun x => { x with console := .served }) := fun e =>
      h1.trans (.of_kept h1.tabled .onEp)
    exact ⟨(h2 _).trans (Less.unseatMembersFrom seat _ _ _ _ (h2 _).tabled).1,
      (Less.unseatMembersFrom seat _ _ _ _ (h2 _).tabled).2⟩
  · exact ⟨h1, rfl⟩

theorem freeList_rewrite {t : CapTable} {q : List Nat} {f : CapEntry → CapEntry} (h : FreeList t q)
    (hf : ∀ e, (f e).type = e.type ∧ (f e).obj = e.obj) : FreeList (t.mapSlot i f) q := by
  refine h.of_frame rfl rfl (fun j _ => ?_) fun j _ => ?_
  · by_cases hji : j = i
    · subst hji; simp [CapTable.mapSlot, setSlot, hf]
    · rw [mapSlot_slots_ne hji]
  · by_cases hji : j = i
    · subst hji; simp [CapTable.mapSlot, setSlot, hf]
    · rw [mapSlot_slots_ne hji]

theorem Less.seatWait (h : Less seat s s') (hx : s.holding c i = some x₀) (hh : x₀.rights.handout = true) :
    Less seat s (s'.onCaps c fun t => t.mapSlot i fun e => { e with rights := { e.rights with wait := true } }) := by
  obtain ⟨q, hq⟩ := h.tabled c
  have hent := h.entry
  refine ⟨fun t => ?_, h.pool, fun t j y hy hty => ?_, fun t => (onCaps_badge t).trans (h.badge t)⟩
  · rw [onCaps_caps]
    split_ifs
    · exact ⟨q, freeList_rewrite hq fun _ => ⟨rfl, rfl⟩⟩
    · exact h.tabled t
  · obtain ⟨hw, hs, hne⟩ := holding_some_iff.mp hy
    rw [onCaps_caps] at hw hs
    by_cases hc : t = c
    · subst hc
      rw [if_pos rfl] at hw hs
      by_cases hji : j = i
      · subst hji
        simp only [CapTable.mapSlot, setSlot, Function.update_self] at hs
        subst hs
        rcases hent t j _ (holding_some_iff.mpr ⟨hw, rfl, hne⟩) hty with ⟨x₁, hx₁, hcp⟩ | hseat
        · obtain rfl := Option.some.inj (hx.symm.trans hx₁)
          exact .inl ⟨x₀, hx, ⟨hcp.type, hcp.obj, hcp.objGen, hcp.badge, hcp.handout, fun h0 => absurd hh (by simp [h0])⟩⟩
        · exact .inr hseat
      · rw [mapSlot_slots_ne hji] at hs
        exact hent t j y (holding_some_iff.mpr ⟨hw, hs, hne⟩) hty
    · rw [if_neg hc] at hw hs
      exact hent t j y (holding_some_iff.mpr ⟨hw, hs, hne⟩) hty

theorem Less.publish (c : Tid) (cap : Nat) (served : Option TaskId) (held : Bool) (admitted : Option TaskId → Bool)
    (ht : Tabled s) :
    ∃ target, Less target s (s.publish c cap served held admitted).1 ∧
      ∀ o, target = some o → (s.publish c cap served held admitted).1.stdoutTarget = some o := by
  unfold Kernel.publish
  split
  · exact ⟨none, .refl ht, by simp⟩
  rename_i idx hidx
  by_cases hty : ((s.thr c).caps.slots idx).type ≠ .endpoint
  · rw [if_pos hty]
    exact ⟨none, .refl ht, by simp⟩
  rw [if_neg hty]
  unfold Kernel.capConsolePublishThrough
  dsimp only
  split
  · exact ⟨none, .refl ht, by simp⟩
  · rename_i ep _
    by_cases h1 : ((s.thr c).caps.slots idx).rights.handout = false
    · rw [if_pos h1]
      exact ⟨none, .refl ht, by simp⟩
    rw [if_neg h1]
    by_cases h2 : held = true
    · rw [if_pos h2]
      exact ⟨none, .refl ht, by simp⟩
    rw [if_neg h2]
    by_cases h3 : ((s.thr c).caps.slots idx).rights.wait = false ∧ (s.ep ep).recvHolders = Kernel.refMax
    · rw [if_pos h3]
      exact ⟨none, .refl ht, by simp⟩
    rw [if_neg h3]
    split
    · exact ⟨none, .refl ht, by simp⟩
    · rename_i s₁ hpub
      obtain ⟨h4, h5⟩ := Less.capConsolePublish ht hpub
      have h6 := h4.seatWait (capLookup_holding hidx) (Bool.eq_true_of_not_eq_false h1)
      have hend : ∀ k : Kernel, Less (some ((s.thr c).caps.slots idx).obj) s k →
          k.stdoutTarget = some ((s.thr c).caps.slots idx).obj → ∃ target, Less target s (k.capConsoleServe served) ∧
            ∀ o, target = some o → (k.capConsoleServe served).stdoutTarget = some o := by
        intro k hk ho
        obtain ⟨h7, h8⟩ := Less.capConsoleServe (some ((s.thr c).caps.slots idx).obj) served hk.tabled
        refine ⟨some ((s.thr c).caps.slots idx).obj, hk.trans h7, fun o hoo => ?_⟩
        rw [h8, ho, hoo]
      split_ifs
      · exact hend _ h4 h5
      · exact hend _ (h6.trans (.of_kept h6.tabled .onEp)) h5

/-! ### Messages -/

/-- The state in which the message of `c` carries badge `b`. -/
def marked (s : Kernel) (c : Tid) (b : Nat) : Kernel := s.onThr c fun x => { x with ipc := { x.ipc with badge := b } }

theorem marked_caps (t : Tid) : ((marked s c badge).thr t).caps = (s.thr t).caps := by
  by_cases hc : t = c
  · subst hc; simp [marked, Kernel.onThr, Kernel.setThr]
  · simp [marked, Kernel.onThr, Kernel.setThr, hc]

theorem marked_badge (t : Tid) : ((marked s c badge).thr t).ipc.badge = if t = c then badge else (s.thr t).ipc.badge := by
  by_cases hc : t = c
  · subst hc; simp [marked, Kernel.onThr, Kernel.setThr]
  · simp [marked, Kernel.onThr, Kernel.setThr, hc]

theorem marked_holding : (marked s c badge).holding = s.holding := by
  funext t i
  simp only [Kernel.holding, marked_caps]

theorem marked_tabled (ht : Tabled s) : Tabled (marked s c badge) := fun t => by rw [marked_caps]; exact ht t

theorem Less.of_tables (ht : Tabled s) (h : s'.tables = s.tables) : Less seat s s' := .of_kept ht (.of_tables h)

theorem Kept.sameCaps : Kept s (s.onCaps c fun _ => (s.thr c).caps) :=
  .onThr (f := fun x => { x with caps := (s.thr c).caps }) rfl

theorem Less.installReply (ht : Tabled s) : Less seat s (s.installReply c u).1 := by
  obtain ⟨q, hq⟩ := ht c
  show Less seat s (s.onCaps c fun _ => (capInstallReply (s.thr c).caps _ _ _).1)
  rcases installReply_table (s.thr c).caps (s.threadHandle u) (s.thr u).gen (s.thr u).callSeq with h | ⟨k, hpeek, h⟩
  · rw [h]
    exact .of_kept ht .sameCaps
  rw [h]
  have hk : k ∈ q := List.mem_of_mem_head? (hq.peek ▸ hpeek)
  obtain ⟨hlo, hw, -⟩ := (hq.mem k).1 hk
  refine .of_table ht (.refl _) onCaps_caps onCaps_badge ⟨_, hq.mintReply hk⟩ fun j y hj hy hye => .inl ⟨y, ?_, .refl y⟩
  have hjk : j ≠ k := by
    rintro rfl
    unfold CapTable.live at hy
    split_ifs at hy
    cases hy
    rw [mintReply_type hlo hw, if_pos rfl] at hye
    exact absurd hye (by decide)
  rw [hq.mintReply_live hk hjk] at hy
  have hj' : j < (s.thr c).caps.width := Nat.lt_of_lt_of_eq hj (installAt_width hlo hw)
  simp only [Kernel.holding, if_pos hj', hy]

theorem Less.uninstallReply {cap : Nat} (ht : Tabled s) : Less seat s (s.uninstallReply c cap u).1 := by
  unfold Kernel.uninstallReply
  rcases uninstallReply_cases (s.thr c).caps cap (s.threadHandle u) with h | ⟨h, hw, hty, -⟩
  · rw [h]
    exact .of_kept ht .sameCaps
  · rw [h]
    exact .slotVacate ht (holding_some_iff.mpr ⟨hw, rfl, by rw [hty]; decide⟩)

theorem Less.mintFor {acc : Access} {out b : Nat} (ht : Tabled s) : Less seat s (s.mintFor acc c u out b).1 := by
  have h1 : Less seat s (s.installReply c u).1 := .installReply ht
  unfold Kernel.mintFor
  rcases hm : s.installReply c u with ⟨s₁, minted⟩
  rw [hm] at h1
  have h2 : Less seat s (s₁.assert minted.isOk) := h1.trans (.of_tables h1.tabled Kernel.assert_tables)
  dsimp only
  split
  · rename_i s₂ hw
    exact h2.trans (.of_tables h2.tabled (Kernel.writeRecvInfo_tables hw))
  · have h3 : ∀ cap, Less seat s ((s₁.assert minted.isOk).uninstallReply c cap u).1 := fun cap =>
      h2.trans (.uninstallReply h2.tabled)
    exact (h3 _).trans (.of_tables (h3 _).tabled Kernel.assert_tables)

theorem Less.takeCall {acc : Access} {buf capLen out : Nat} (ht : Tabled s) :
    Less seat s (s.takeCall acc c t buf capLen out).1 := by
  unfold Kernel.takeCall
  rcases hc : s.epCopy acc buf (s.thr t).ipc.buf (min (s.thr t).ipc.len capLen) with _ | s₁
  · exact .refl ht
  · have h1 : Less seat s s₁ := .of_tables ht (Kernel.epCopy_tables hc)
    exact h1.trans (.mintFor h1.tabled)

theorem Less.recvScan (acc : Access) (c : Tid) (e : Eid) (buf capLen out fuel : Nat) (s : Kernel) (top : Option Tid)
    (ht : Tabled s) : Less seat s (Kernel.recvScan acc c e buf capLen out fuel s top).1 := by
  induction fuel generalizing s top with
  | zero => exact .refl ht
  | succ fuel ih =>
    have hp := Kernel.wqPopHighest_tables (s := s) (q := .send e)
    unfold Kernel.recvScan
    rcases hpop : s.wqPopHighest (.send e) with ⟨s₁, _ | t⟩
    · rw [hpop] at hp
      exact .of_tables ht hp
    rw [hpop] at hp
    have h1 : Less seat s s₁ := .of_tables ht hp
    -- a caller the receiver cannot answer is refused, and the scan goes on
    have hnext : ∀ answer, Less seat s (Kernel.recvScan acc c e buf capLen out fuel (s₁.callerRefuse c t answer top).1
        (s₁.callerRefuse c t answer top).2).1 := fun answer => by
      have h2 : Less seat s (s₁.callerRefuse c t answer top).1 := h1.trans (.of_tables h1.tabled Kernel.callerRefuse_tables)
      exact h2.trans (ih _ _ h2.tabled)
    dsimp only
    split_ifs
    · exact hnext _
    · exact hnext _
    · have htc : Less seat s (s₁.takeCall acc c t buf capLen out).1 := h1.trans (.takeCall h1.tabled)
      rcases hres : s₁.takeCall acc c t buf capLen out with ⟨s₂, _ | _⟩
      · rw [hres] at htc
        exact htc.trans (.of_tables htc.tabled (@Kernel.callerRefuse_tables _ _ _ _ top))
      · rw [hres] at htc
        refine htc.trans (.of_tables htc.tabled (Kernel.ite_tables (Kernel.setPrio_tables.trans ?_) ?_))
        all_goals exact Kernel.replyDonorPark_tables.trans Kernel.replyWaitSeat_tables
    · split
      · exact h1.trans (.of_tables h1.tabled ((@Kernel.wakeOffer_tables _ _ top).trans (Kernel.onThr_tables rfl)))
      · rename_i s₂ hcopy
        exact h1.trans (.of_tables h1.tabled ((@Kernel.wakeOffer_tables _ _ top).trans ((Kernel.onThr_tables rfl).trans
          (Kernel.getD_recvInfo_tables.trans (Kernel.epCopy_tables hcopy)))))

theorem Less.recvFrom {acc : Access} {buf capLen out : Nat} {d : Option Nat} {top : Option Tid} (ht : Tabled s) :
    Less seat s (s.recvFrom acc c e buf capLen out d top).1 := by
  have h1 : (if (s.ep e).console = .served then s.heldServe acc buf capLen out else (s, none)).1.tables = s.tables := by
    split_ifs
    · exact Kernel.heldServe_tables
    · rfl
  unfold Kernel.recvFrom
  rcases hr : (if (s.ep e).console = .served then s.heldServe acc buf capLen out else (s, none)) with ⟨s₁, _ | rc⟩
  · rw [hr] at h1
    have h2 : Less seat s s₁ := .of_tables ht h1
    have h3 : Less seat s (Kernel.recvScan acc c e buf capLen out ((s₁.ep e).sendWaiters.length + 1) s₁ top).1 :=
      h2.trans (.recvScan _ _ _ _ _ _ _ _ _ h2.tabled)
    dsimp only
    rcases hscan : Kernel.recvScan acc c e buf capLen out ((s₁.ep e).sendWaiters.length + 1) s₁ top with ⟨s₂, top', _ | rc⟩
    · rw [hscan] at h3
      exact h3.trans (.of_tables h3.tabled (Kernel.wqBlock_tables.trans (Kernel.onThr_tables rfl)))
    · rw [hscan] at h3
      exact h3.trans (.of_tables h3.tabled Kernel.wakeTop_tables)
  · rw [hr] at h1
    exact .of_tables ht (Kernel.wakeTop_tables.trans h1)

theorem Less.endpointRecv {acc : Access} {cap buf capLen out : Nat} {d : Option Nat} (ht : Tabled s) :
    Less seat s (s.endpointRecv acc c cap buf capLen out d).1 := by
  unfold Kernel.endpointRecv
  split
  · exact .refl ht
  · rename_i e _
    have h1 : ∀ left obj, Less seat s ((s.endpointReceiverWaits e c).taskNoteReceive left obj).1 := fun _ _ =>
      .of_tables ht (Kernel.taskNoteReceive_tables.trans Kernel.endpointReceiverWaits_tables)
    exact (h1 _ _).trans (.recvFrom (h1 _ _).tabled)

theorem Less.callReceiver {acc : Access} {b buf sendLen recvCap : Nat} {d : Option Nat} (ht : Tabled s) :
    Less seat s (s.callReceiver acc c u e b buf sendLen recvCap d).1 := by
  have hp := Kernel.wqPopHighest_tables (s := s) (q := .recv e)
  unfold Kernel.callReceiver
  rcases hpop : s.wqPopHighest (.recv e) with ⟨s₁, o⟩
  rw [hpop] at hp
  dsimp only
  rcases hcopy : s₁.epCopy acc (s₁.thr u).ipc.buf buf (min sendLen (s₁.thr u).ipc.len) with _ | s₂
  · exact .of_tables ht (Kernel.wake_tables.trans ((Kernel.onThr_tables rfl).trans hp))
  have h1 : Less seat s (s₂.onThr c fun x => { x with callSeq := (x.callSeq + 1) % 2 ^ 16 }) :=
    .of_tables ht ((Kernel.onThr_tables rfl).trans ((Kernel.epCopy_tables hcopy).trans hp))
  set s₃ := s₂.onThr c fun x => { x with callSeq := (x.callSeq + 1) % 2 ^ 16 } with hs₃
  have h2 : Less seat s (s₃.mintFor acc u c (s₃.thr u).ipc.badgeOut b).1 := h1.trans (.mintFor h1.tabled)
  dsimp only
  rcases hm : s₃.mintFor acc u c (s₃.thr u).ipc.badgeOut b with ⟨s₄, _ | _⟩
  · rw [hm] at h2
    exact h2.trans (.of_tables h2.tabled (Kernel.wake_tables.trans (Kernel.onThr_tables rfl)))
  · rw [hm] at h2
    refine h2.trans (.of_tables h2.tabled (Kernel.wake_tables.trans ((Kernel.tables_of_core Kernel.deadlineArm_core).trans
      (Kernel.replyDonorPark_tables.trans (Kernel.parkQueueless_tables.trans ((Kernel.onThr_tables rfl).trans
        (Kernel.ite_tables (Kernel.setPrio_tables.trans ?_) ?_)))))))
    all_goals exact Kernel.replyWaitSeat_tables.trans (Kernel.onThr_tables rfl)

/-- A send or call leaves the badges, but for that of a message it parks. -/
structure Sends (s : Kernel) (c : Tid) (cap : Nat) (r : Kernel × Kernel.Attempt) : Prop where
  done : s.parksOn c cap r.2 = none → Less none s r.1
  parked : ∀ e, s.parksOn c cap r.2 = some e → s.capResolve c cap .endpoint { signal := true } = .ok e ∧
    Less none (marked s c (s.senderBadge c cap)) r.1

theorem Sends.of_less {cap : Nat} {r : Kernel × Kernel.Attempt} (h : Less none s r.1) (hp : s.parksOn c cap r.2 = none) :
    Sends s c cap r := ⟨fun _ => h, fun e he => absurd (hp.symm.trans he) (by simp)⟩

theorem parksOn_answered {cap : Nat} {rc : Answer} : s.parksOn c cap (.answered rc) = none := by
  unfold Kernel.parksOn
  split
  · rename_i h
    exact absurd h (by simp)
  · rfl

theorem parksOn_waited {cap : Nat} {r : Kernel.Attempt} (h : s.capResolve c cap .endpoint { signal := true } = .ok e)
    (hw : s.wqPeekHighest (s.ep e).recvWaiters = some u) : s.parksOn c cap r = none := by
  unfold Kernel.parksOn
  rw [h]
  cases r with
  | parked => simp [hw]
  | answered rc => rfl
  | retry => rfl

theorem parksOn_parked {cap : Nat} (h : s.capResolve c cap .endpoint { signal := true } = .ok e)
    (hw : s.wqPeekHighest (s.ep e).recvWaiters = none) : s.parksOn c cap .parked = some e := by
  unfold Kernel.parksOn
  simp [h, hw]

theorem sends_endpointSend {acc : Access} {cap buf len : Nat} {readable noWait : Bool} {d : Option Nat} (ht : Tabled s) :
    Sends s c cap (s.endpointSend acc c cap buf len readable noWait d) := by
  have hrefused : ∀ err, Sends s c cap (s, .answered (.error err)) := fun _ => .of_less (.refl ht) parksOn_answered
  unfold Kernel.endpointSend
  by_cases h1 : epMsgMax < len
  · rw [if_pos h1]
    exact hrefused _
  rw [if_neg h1]
  by_cases h2 : readable = false
  · rw [if_pos h2]
    exact hrefused _
  rw [if_neg h2]
  rcases hres : s.capResolve c cap .endpoint { signal := true } with err | e
  · exact hrefused _
  dsimp only
  by_cases h3 : s.takesSends e = false
  · rw [if_pos h3]
    exact hrefused _
  rw [if_neg h3]
  rcases hpeek : s.wqPeekHighest (s.ep e).recvWaiters with _ | w
  · rw [Kernel.wqPop_recv_none hpeek]
    dsimp only
    by_cases h4 : noWait = true
    · rw [if_pos h4]
      exact hrefused _
    rw [if_neg h4]
    refine ⟨fun hno => absurd ((parksOn_parked hres hpeek).symm.trans hno) (by simp), fun e' he => ?_⟩
    obtain rfl := Option.some.inj ((parksOn_parked hres hpeek).symm.trans he)
    exact ⟨hres, .of_tables (marked_tabled ht) (Kernel.wqBlock_tables.trans (Kernel.onThr_tables_congr rfl))⟩
  · refine .of_less ?_ (parksOn_waited hres hpeek)
    have hp := Kernel.wqPopHighest_tables (s := s) (q := .recv e)
    rw [Kernel.wqPop_recv hpeek] at hp ⊢
    dsimp only
    split
    · exact .of_tables ht (Kernel.wake_tables.trans ((Kernel.onThr_tables rfl).trans hp))
    · rename_i s₂ hcopy
      exact .of_tables ht (Kernel.wake_tables.trans ((Kernel.onThr_tables rfl).trans
        (Kernel.getD_recvInfo_tables.trans ((Kernel.epCopy_tables hcopy).trans hp))))

theorem callPark_tables {b buf sendLen recvCap : Nat} {d : Option Nat} :
    (s.callPark c e b buf sendLen recvCap d).tables = (marked s c b).tables := by
  unfold Kernel.callPark
  refine Kernel.wqBlock_tables.trans ?_
  split
  · exact Kernel.onThr_tables_congr rfl
  · exact Kernel.ite_tables (Kernel.setPrio_tables.trans (Kernel.onThr_tables_congr rfl)) (Kernel.onThr_tables_congr rfl)

theorem sends_endpointCall {acc : Access} {cap buf sendLen recvCap : Nat} {valid : Bool} {d : Option Nat} (ht : Tabled s) :
    Sends s c cap (s.endpointCall acc c cap buf sendLen recvCap valid d) := by
  have hrefused : ∀ err, Sends s c cap (s, .answered (.error err)) := fun _ => .of_less (.refl ht) parksOn_answered
  unfold Kernel.endpointCall
  split_ifs
  · exact hrefused _
  · exact hrefused _
  rcases hres : s.capResolve c cap .endpoint { signal := true } with err | e
  · exact hrefused _
  dsimp only
  split_ifs
  · exact hrefused _
  rcases hpeek : s.wqPeekHighest (s.ep e).recvWaiters with _ | w
  · refine ⟨fun hno => absurd ((parksOn_parked hres hpeek).symm.trans hno) (by simp), fun e' he => ?_⟩
    obtain rfl := Option.some.inj ((parksOn_parked hres hpeek).symm.trans he)
    exact ⟨hres, .of_tables (marked_tabled ht) callPark_tables⟩
  · dsimp only
    split_ifs
    · exact hrefused _
    · exact hrefused _
    · exact hrefused _
    · exact .of_less (.callReceiver ht) (parksOn_waited hres hpeek)

end Cap
end KickOS
