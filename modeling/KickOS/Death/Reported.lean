import KickOS.Death.Slot

/-! The deaths of the tasks over whole runs: the reports of every incarnation, and the list of the free shared records. -/

namespace KickOS
namespace Death
open Function (update update_idem update_of_ne update_self)

namespace State

variable {s s' : State} {t t' c seat b tag : Nat} {gen : BitVec 16}

/-! ### The other records -/

/-- An act on one record leaves the others. -/
structure Only (s s' : State) (t : Nat) : Prop where
  threads : s'.threads = s.threads
  task : ∀ t', t' ≠ t → s'.task t' = s.task t'
  retiring : ∀ t', t' ≠ t → s'.retiring t' = s.retiring t'
  joined : ∀ t', t' ≠ t → s'.joined t' = s.joined t'
  orphaned : ∀ t', t' ≠ t → s'.orphaned t' = s.orphaned t'
  reports : ∀ t', t' ≠ t → ∀ seat, s'.reportsOf t' seat = s.reportsOf t' seat
  thread : ∀ c, s'.thread c = s.thread c ∨ ∀ t', t' ≠ t → (s.thread c).on ≠ some t' ∧ (s'.thread c).on ≠ some t'

theorem Only.frame (h : Only s s' t) (ht : t' ≠ t) (hs : SlotSound s t') : SlotSound s' t' :=
  hs.frame h.threads (h.task t' ht) (h.retiring t' ht) (h.joined t' ht) (h.orphaned t' ht) (h.reports t' ht)
    fun c => (h.thread c).imp_right fun hc => hc t' ht

theorem mark_other {f : Nat → Nat → Bool} (h : t' ≠ t) (seat : Nat) : mark f t seat t' = f t' :=
  funext fun _ => mark_of_ne (.inl h)

theorem thread_update {v : Stage} (hc : (s.thread c).on = none ∨ (s.thread c).on = some t) (hv : v.on = none ∨ v.on = some t)
    (d : Nat) : update s.thread c v d = s.thread d ∨
      ∀ t', t' ≠ t → (s.thread d).on ≠ some t' ∧ (update s.thread c v d).on ≠ some t' := by
  rcases eq_or_ne d c with rfl | hd
  · refine .inr fun t' ht => ?_
    rw [update_self]
    constructor
    · rcases hc with hc | hc
      · rw [hc]
        exact Option.some_ne_none _ |>.symm
      · rw [hc]
        exact fun he => ht (Option.some.inj he).symm
    · rcases hv with hv | hv
      · rw [hv]
        exact Option.some_ne_none _ |>.symm
      · rw [hv]
        exact fun he => ht (Option.some.inj he).symm
  · exact .inl (update_of_ne hd _ _)

theorem only_taskRef (hc : s.thread c = .out) : Only s (s.taskRef c t) t where
  threads := rfl
  task _ ht := update_of_ne ht _ _
  retiring _ _ := rfl
  joined _ ht := mark_other ht _
  orphaned _ _ := rfl
  reports _ _ _ := rfl
  thread := thread_update (.inl (by rw [hc]; rfl)) (.inr rfl)

theorem only_leave (hc : s.thread c = .member t seat) : Only s (s.leave c t seat) t := by
  obtain ⟨f, hf⟩ := taskRelease_eq s t
  unfold State.leave
  rw [hf]
  exact ⟨rfl, fun _ ht => update_of_ne ht _ _, fun _ _ => rfl, fun _ _ => rfl, fun _ _ => rfl, fun _ _ _ => rfl,
    thread_update (.inr (by rw [hc]; rfl)) (.inr rfl)⟩

theorem only_dropHold (s : State) (t : Nat) : Only s (s.taskDropHold t) t := by
  by_cases htag : (s.task t).creatorTag = 0
  · rw [taskDropHold, if_pos htag]
    exact ⟨rfl, fun _ _ => rfl, fun _ _ => rfl, fun _ _ => rfl, fun _ _ => rfl, fun _ _ _ => rfl, fun _ => .inl rfl⟩
  · obtain ⟨f, hf⟩ := taskDropHold_eq htag
    rw [hf]
    refine ⟨rfl, fun _ ht => update_of_ne ht _ _, fun _ _ => rfl, fun _ _ => rfl, fun t' ht => ?_, fun _ _ _ => rfl,
      fun _ => .inl rfl⟩
    dsimp only
    split_ifs
    · rfl
    · exact mark_other ht _

theorem only_sweepEnd (hs : (s.task t).sweeping ≠ 0) (hc : s.thread c = .sweeps t seat gen) :
    Only s (s.sweepEnd c t seat gen) t := by
  obtain ⟨f, dead, hf⟩ := sweepEnd_eq hs c seat gen
  rw [hf]
  refine ⟨rfl, fun _ ht => update_of_ne ht _ _, fun _ _ => rfl, fun _ _ => rfl, fun _ _ => rfl, fun t' ht k => ?_,
    thread_update (.inr (by rw [hc]; rfl)) (.inl rfl)⟩
  unfold reportsOf
  dsimp only
  split_ifs
  · rw [List.countP_cons_of_neg]
    simp [ht.symm]
  · rfl

/-! ### The seats -/

/-- A record that may be seated: nobody is in it and nothing retires at its charge. -/
def Vacant (s : State) (t : Nat) : Prop := s.Over t ∧ s.retiring t = []

theorem vacant_of_slotFree (h : s.slotFree t = true) : s.Vacant t := by
  simp only [slotFree, Bool.and_eq_true, beq_iff_eq, List.isEmpty_iff] at h
  exact ⟨⟨h.1.1.1, h.1.2⟩, h.2⟩

theorem vacant_of_declFree (h : s.declFree t = true) : s.Vacant t := by
  simp only [declFree, Bool.and_eq_true, beq_iff_eq, List.isEmpty_iff] at h
  exact ⟨⟨h.1.1.1, h.1.1.2⟩, h.2⟩

theorem taskCreateDeclared_eq (ho : s.Over t) (tag : Nat) : ∃ f, s.taskCreateDeclared t tag = { s with
    task := update s.task t
      { gen := if (s.task t).creatorTag = 0 then (s.task t).gen else (s.task t).gen + 1
        seats := (s.task t).seats + 1
        creatorTag := tag }
    free := f } := by
  obtain ⟨f, hf⟩ := taskDropHold_over ho
  refine ⟨f, ?_⟩
  unfold taskCreateDeclared taskFill setTask
  rw [hf]
  dsimp only
  rw [update_self, update_idem, update_self, update_idem]

theorem SlotSound.create (h : SlotSound s t) (hv : s.Vacant t) : SlotSound (s.taskCreateDeclared t tag) t := by
  obtain ⟨f, hf⟩ := taskCreateDeclared_eq hv.1 tag
  rw [hf]
  exact h.reseat hv.1 hv.2 ⟨rfl, rfl, rfl⟩ (fun _ => (h.future _ (Nat.lt_succ_self _)).2.2) fun _ _ => rfl

theorem only_create (ho : s.Over t) : Only s (s.taskCreateDeclared t tag) t := by
  obtain ⟨f, hf⟩ := taskCreateDeclared_eq ho tag
  rw [hf]
  exact ⟨rfl, fun _ ht => update_of_ne ht _ _, fun _ _ => rfl, fun _ _ => rfl, fun _ _ => rfl, fun _ _ _ => rfl,
    fun _ => .inl rfl⟩

/-- The record `freeSlot` takes, seated and marked as one nobody holds. -/
def bootSeat (s : State) (t : Nat) : State :=
  { s with
    task := update s.task t { gen := (s.task t).gen, seats := (s.task t).seats + 1 }
    orphaned := mark s.orphaned t ((s.task t).seats + 1) }

theorem SlotSound.bootSeat (h : SlotSound s t) (hv : s.Vacant t) : SlotSound (s.bootSeat t) t :=
  h.reseat hv.1 hv.2 ⟨rfl, rfl, rfl⟩ (fun hne => absurd rfl hne) fun _ hk => mark_of_ne (.inr hk)

theorem only_bootSeat (s : State) (t : Nat) : Only s (s.bootSeat t) t :=
  ⟨rfl, fun _ ht => update_of_ne ht _ _, fun _ _ => rfl, fun _ _ => rfl, fun _ ht => mark_other ht _, fun _ _ _ => rfl,
    fun _ => .inl rfl⟩

theorem over_bootSeat (s : State) (t : Nat) :
    (s.bootSeat t).Over t ∧ (s.bootSeat t).orphaned t ((s.bootSeat t).task t).seats = true ∧
      ((s.bootSeat t).task t).ended = false := by
  have ht : (s.bootSeat t).task t = { gen := (s.task t).gen, seats := (s.task t).seats + 1 } := update_self ..
  unfold Over
  rw [ht]
  exact ⟨⟨rfl, rfl⟩, mark_self .., rfl⟩

theorem SlotSound.bootJoin (h : SlotSound s t) (hv : s.Vacant t) (hc : c < s.threads) (hout : s.thread c = .out) :
    SlotSound ((s.bootSeat t).taskRef c t) t := by
  obtain ⟨h1, h2, h3⟩ := over_bootSeat s t
  exact (h.bootSeat hv).join hc hout (.inr ⟨h1, h2⟩) h3

theorem Only.trans {s₁ s₂ : State} (h : Only s s₁ t) (h' : Only s₁ s₂ t) : Only s s₂ t where
  threads := h'.threads.trans h.threads
  task t' ht := (h'.task t' ht).trans (h.task t' ht)
  retiring t' ht := (h'.retiring t' ht).trans (h.retiring t' ht)
  joined t' ht := (h'.joined t' ht).trans (h.joined t' ht)
  orphaned t' ht := (h'.orphaned t' ht).trans (h.orphaned t' ht)
  reports t' ht k := (h'.reports t' ht k).trans (h.reports t' ht k)
  thread c := by
    rcases h.thread c with h1 | h1 <;> rcases h'.thread c with h2 | h2
    · exact .inl (h2.trans h1)
    · exact .inr fun t' ht => ⟨h1 ▸ (h2 t' ht).1, (h2 t' ht).2⟩
    · exact .inr fun t' ht => ⟨(h1 t' ht).1, h2 ▸ (h1 t' ht).2⟩
    · exact .inr fun t' ht => ⟨(h1 t' ht).1, (h2 t' ht).2⟩

/-! ### The free list -/

/-- The shared free list: each record once, and only free ones. -/
def FreeSound (s : State) : Prop := ∃ l, s.free.Lists l ∧ ∀ t ∈ l, t < s.shared ∧ s.slotFree t = true

theorem FreeSound.congr (h : FreeSound s) (hf : s'.free = s.free) (hs : s'.shared = s.shared)
    (hall : ∀ t, s.slotFree t = true → s'.slotFree t = true) : FreeSound s' := by
  obtain ⟨l, hl, hmem⟩ := h
  refine ⟨l, by rw [hf]; exact hl, fun t ht => ?_⟩
  rw [hs]
  exact ⟨(hmem t ht).1, hall t (hmem t ht).2⟩

theorem FreeSound.freePut (h : FreeSound s) (t : Nat) : FreeSound (s.freePut t) := by
  obtain ⟨l, hl, hmem⟩ := h
  unfold State.freePut
  split_ifs with hc
  · exact ⟨l, hl, hmem⟩
  · simp only [Bool.or_eq_true, decide_eq_true_eq, Bool.not_eq_true', not_or, Bool.not_eq_false, Bool.not_eq_true] at hc
    obtain ⟨⟨hlt, hfree⟩, hnot⟩ := hc
    have ht : t ∉ l := fun hm => by
      rw [hl.holds_iff.2 hm] at hnot
      cases hnot
    refine ⟨t :: l, hl.push ht, fun t' hm => ?_⟩
    rcases List.mem_cons.1 hm with rfl | hm
    · exact ⟨not_le.1 hlt, hfree⟩
    · exact hmem t' hm

theorem FreeSound.setTask (h : FreeSound s) (ht : s.slotFree t = false) (f : Task → Task) : FreeSound (s.setTask t f) := by
  refine h.congr rfl rfl fun t' hfree => ?_
  have hne : t' ≠ t := by
    rintro rfl
    rw [ht] at hfree
    cases hfree
  have hsame : (s.setTask t f).task t' = s.task t' := update_of_ne hne _ _
  unfold slotFree
  rw [hsame]
  exact hfree

theorem slotFree_iff (s : State) (t : Nat) :
    s.slotFree t = true ↔ s.Over t ∧ (s.task t).creatorTag = 0 ∧ s.retiring t = [] := by
  simp only [slotFree, Over, Bool.and_eq_true, beq_iff_eq, List.isEmpty_iff]
  tauto

theorem not_slotFree (h : ¬ (s.Over t ∧ (s.task t).creatorTag = 0 ∧ s.retiring t = [])) : s.slotFree t = false :=
  Bool.eq_false_iff.2 fun hc => h ((slotFree_iff s t).1 hc)

theorem FreeSound.freeTask (h : FreeSound s) (ht : s.slotFree t = false) : FreeSound (s.freeTask t) :=
  (h.setTask ht _).freePut t

theorem FreeSound.dropHold (h : FreeSound s) (t : Nat) : FreeSound (s.taskDropHold t) := by
  unfold taskDropHold
  dsimp only
  generalize (if (s.task t).refcount = 0 ∧ (s.task t).sweeping = 0 then s.orphaned else mark s.orphaned t (s.task t).seats) = o
  by_cases htag : (s.task t).creatorTag = 0
  · rw [if_pos htag]
    exact h
  have hbusy : ({ s with orphaned := o } : State).slotFree t = false := not_slotFree fun hc => htag hc.2.1
  have h1 : FreeSound { s with orphaned := o } := h.congr rfl rfl fun _ => id
  rw [if_neg htag]
  split_ifs with hzero
  -- between its two writes the record is free and not listed
  · have h2 := h1.setTask hbusy fun x => { { x with creatorTag := 0 } with creatorTag := 0, gen := x.gen + 1 }
    have hsame : (({ s with orphaned := o } : State).setTask t fun x => { x with creatorTag := 0 }).freeTask t =
        (({ s with orphaned := o } : State).setTask t
          fun x => { { x with creatorTag := 0 } with creatorTag := 0, gen := x.gen + 1 }).freePut t := by
      unfold State.freeTask State.setTask
      dsimp only
      rw [update_self, update_idem]
    rw [hsame]
    exact h2.freePut t
  · exact h1.setTask hbusy _

theorem FreeSound.join (h : FreeSound s) (ht : s.slotFree t = false) (c : Nat) : FreeSound (s.taskRef c t) :=
  (h.setTask ht fun x => { x with refcount := x.refcount + 1 }).congr rfl rfl fun _ => id

theorem FreeSound.leave (h : FreeSound s) (ho : ¬ s.Over t) (c seat : Nat) : FreeSound (s.leave c t seat) := by
  have h1 := h.setTask (t := t) (not_slotFree fun hc => ho hc.1)
    fun x => { x with refcount := x.refcount - 1, sweeping := x.sweeping + 1 }
  have hbusy : (s.setTask t fun x => { x with refcount := x.refcount - 1, sweeping := x.sweeping + 1 }).slotFree t = false := by
    refine not_slotFree fun hc => ?_
    have hx := hc.1.2
    rw [show (s.setTask t _).task t = _ from update_self ..] at hx
    exact Nat.succ_ne_zero _ hx
  have h2 : FreeSound (s.taskRelease t) := by
    unfold taskRelease
    dsimp only
    split_ifs
    · exact h1.freeTask hbusy
    · exact h1
  exact h2.congr rfl rfl fun _ => id

theorem FreeSound.sweepEnd (h : FreeSound s) (hs : (s.task t).sweeping ≠ 0) (c seat : Nat) (gen : BitVec 16) :
    FreeSound (s.sweepEnd c t seat gen) := by
  have h1 : FreeSound (s.taskSweepDone t gen).1 := by
    unfold taskSweepDone
    rw [if_neg hs]
    exact (h.setTask (not_slotFree fun hc => hs hc.1.2) _).freePut t
  have h2 : ∀ m : State, FreeSound m → FreeSound (m.taskReportDeath t gen seat) := by
    intro m hm
    unfold taskReportDeath
    split_ifs
    · exact hm
    · refine hm.congr rfl rfl fun t' hfree => ?_
      rcases eq_or_ne t' t with rfl | hne
      · unfold slotFree State.setTask at *
        dsimp only
        rw [update_self]
        exact hfree
      · unfold slotFree State.setTask at *
        dsimp only
        rw [update_of_ne hne]
        exact hfree
  unfold State.sweepEnd
  dsimp only
  split_ifs
  · exact (h2 _ h1).congr rfl rfl fun _ => id
  · exact h1.congr rfl rfl fun _ => id

theorem FreeSound.create (h : FreeSound s) (ht : s.shared ≤ t) (ho : s.Over t) : FreeSound (s.taskCreateDeclared t tag) := by
  have h1 := h.dropHold t
  have hs : (s.taskDropHold t).shared = s.shared := by
    obtain ⟨f, hf⟩ := taskDropHold_over ho
    rw [hf]
  obtain ⟨l, hl, hmem⟩ := h1
  refine ⟨l, hl, fun t' hm => ?_⟩
  have hlt := (hmem t' hm).1
  have hne : t' ≠ t := by
    rw [hs] at hlt
    exact (lt_of_lt_of_le hlt ht).ne
  refine ⟨hlt, ?_⟩
  have hsame : (s.taskCreateDeclared t tag).task t' = (s.taskDropHold t).task t' := by
    unfold taskCreateDeclared taskFill State.setTask
    dsimp only
    rw [update_of_ne hne, update_of_ne hne]
  have := (hmem t' hm).2
  unfold slotFree at this ⊢
  rw [hsame]
  exact this

theorem freshFrom_free {n at_ : Nat} (hn : s.shared - at_ ≤ n) :
    s.shared ≤ s.freshFrom n at_ ∨ s.slotFree (s.freshFrom n at_) = true := by
  induction n generalizing at_ with
  | zero => exact .inl (Nat.sub_eq_zero_iff_le.1 (Nat.le_zero.1 hn))
  | succ n ih =>
    unfold freshFrom
    split_ifs with hc
    · exact ih (by omega)
    · simp only [Bool.and_eq_true, decide_eq_true_eq, Bool.not_eq_true', not_and, Bool.not_eq_false] at hc
      rcases Nat.lt_or_ge at_ s.shared with hlt | hge
      · exact .inr (hc hlt)
      · exact .inl hge

theorem FreeSound.freeSlot (h : FreeSound s) : ∃ f n, s.freeSlot.1 = { s with free := f, fresh := n } ∧
    FreeSound s.freeSlot.1 ∧ ∀ t, s.freeSlot.2 = some t → s.slotFree t = true ∧ ∃ l, f.Lists l ∧ t ∉ l ∧
      ∀ t' ∈ l, t' < s.shared ∧ s.slotFree t' = true := by
  obtain ⟨l, hl, hmem⟩ := h
  unfold State.freeSlot
  cases l with
  | nil =>
    rw [hl.pop_nil]
    dsimp only
    split_ifs with hc
    · exact ⟨s.free, _, rfl, ⟨[], hl, fun _ hm => absurd hm List.not_mem_nil⟩, fun t ht => by cases ht⟩
    · refine ⟨s.free, _, rfl, ⟨[], hl, fun _ hm => absurd hm List.not_mem_nil⟩, fun t ht => ?_⟩
      cases ht
      exact ⟨(freshFrom_free le_rfl).resolve_left hc, [], hl, List.not_mem_nil, fun _ hm => absurd hm List.not_mem_nil⟩
  | cons a l =>
    obtain ⟨f, hf, hl'⟩ := hl.pop_cons
    have hnd := List.nodup_cons.1 hl.nodup
    rw [hf]
    have hrest : ∀ t' ∈ l, t' < s.shared ∧ s.slotFree t' = true := fun t' hm => hmem t' (List.mem_cons_of_mem _ hm)
    refine ⟨f, s.fresh, rfl, ⟨l, hl', hrest⟩, fun t ht => ?_⟩
    cases ht
    exact ⟨(hmem _ (List.mem_cons_self ..)).2, l, hl', hnd.1, hrest⟩

theorem taskFor_eq (h : FreeSound s) (c : Nat) : ∃ f n, s.taskFor c = { s with free := f, fresh := n } ∨
    ∃ t, s.slotFree t = true ∧ s.taskFor c = (State.bootSeat { s with free := f, fresh := n } t).taskRef c t := by
  obtain ⟨f, n, he, -, hfree⟩ := h.freeSlot
  refine ⟨f, n, ?_⟩
  unfold State.taskFor
  rcases hs : s.freeSlot with ⟨m, _ | t⟩
  · rw [hs] at he
    exact .inl he
  · rw [hs] at he hfree
    have hm : m = { s with free := f, fresh := n } := he
    refine .inr ⟨t, (hfree t rfl).1, ?_⟩
    rw [hm]
    dsimp only
    unfold taskFill State.setTask
    dsimp only
    rw [update_self]
    rfl

theorem FreeSound.taskFor (h : FreeSound s) (c : Nat) : FreeSound (s.taskFor c) := by
  obtain ⟨f, n, he, hs, hfree⟩ := h.freeSlot
  unfold State.taskFor
  rcases hr : s.freeSlot with ⟨m, _ | t⟩
  · rw [hr] at hs
    exact hs
  · rw [hr] at he hfree
    have hm : m = { s with free := f, fresh := n } := he
    obtain ⟨-, l, hl, hnot, hmem⟩ := hfree t rfl
    rw [hm]
    refine ⟨l, hl, fun t' ht' => ⟨(hmem t' ht').1, ?_⟩⟩
    have hne : t' ≠ t := by
      rintro rfl
      exact hnot ht'
    have hsame := (hmem t' ht').2
    unfold slotFree taskRef taskFill State.setTask at *
    dsimp only
    rw [update_of_ne hne, update_of_ne hne]
    exact hsame

/-! ### The runs -/

/-- Every record is sound, every report is of the incarnation its reporter left, and the free list is. -/
structure Sound (s : State) : Prop where
  slot : ∀ t, SlotSound s t
  reporter : ∀ r ∈ s.reports, r.reporter = r.seat
  free : FreeSound s

theorem Sound.act (h : Sound s) (hs : SlotSound s' t) (ho : Only s s' t) (hr : ∀ r ∈ s'.reports, r.reporter = r.seat)
    (hf : FreeSound s') : Sound s' := by
  refine ⟨fun t' => ?_, hr, hf⟩
  rcases eq_or_ne t' t with rfl | hne
  · exact hs
  · exact ho.frame hne (h.slot t')

theorem Sound.boot (size shared threads : Nat) : Sound (boot size shared threads) where
  slot t := by
    refine ⟨?_, ?_, ?_, ?_, ?_, fun ho => ?_, ?_, fun _ => rfl, ?_, fun k hk => ?_, fun k hk => ⟨rfl, rfl, rfl⟩, fun hne => ?_⟩
    · exact (Lib.count_eq_zero.2 fun _ _ => rfl).symm
    · exact (Lib.count_eq_zero.2 fun _ _ => rfl).symm
    · intro c k hc
      cases hc
    · intro c k g hc
      cases hc
    · intro b k hb
      cases hb
    · exact absurd ⟨rfl, rfl⟩ ho
    · exact .inr (.inr ⟨rfl, rfl⟩)
    · rw [if_neg]
      · rfl
      · rintro ⟨⟨hj, -⟩, -⟩
        cases hj
    · cases hk
    · exact absurd rfl hne
  reporter r hr := by cases hr
  free := ⟨[], Lib.HeadList.lists_empty, fun _ hm => absurd hm List.not_mem_nil⟩

theorem Sound.exec_taskFor (h : Sound s) (ha : s.Enabled (.taskFor c)) : Sound (s.exec (.taskFor c)) := by
  obtain ⟨hlt, hout⟩ := ha
  have hf := h.free.taskFor c
  obtain ⟨f, n, he | ⟨t, hfree, he⟩⟩ := taskFor_eq h.free c
  · refine ⟨fun t => ?_, ?_, hf⟩
    all_goals simp only [State.exec, he]
    · exact (h.slot t).frame rfl rfl rfl rfl rfl (fun _ => rfl) fun _ => .inl rfl
    · exact h.reporter
  · have hslot : SlotSound { s with free := f, fresh := n } t :=
      (h.slot t).frame rfl rfl rfl rfl rfl (fun _ => rfl) fun _ => .inl rfl
    have hreports : (s.taskFor c).reports = s.reports := by rw [he]; rfl
    refine h.act (t := t) ?_ ?_ ?_ hf
    · show SlotSound (s.taskFor c) t
      rw [he]
      exact hslot.bootJoin (vacant_of_slotFree hfree) hlt hout
    · show Only s (s.taskFor c) t
      rw [he]
      have h0 : Only s { s with free := f, fresh := n } t :=
        ⟨rfl, fun _ _ => rfl, fun _ _ => rfl, fun _ _ => rfl, fun _ _ => rfl, fun _ _ _ => rfl, fun _ => .inl rfl⟩
      exact (h0.trans (only_bootSeat _ t)).trans (only_taskRef hout)
    · show ∀ r ∈ (s.taskFor c).reports, _
      rw [hreports]
      exact h.reporter

theorem Sound.exec_create (h : Sound s) (ha : s.Enabled (.create t tag)) : Sound (s.exec (.create t tag)) := by
  obtain ⟨hshared, -, -, hfree⟩ := ha
  have hv := vacant_of_declFree hfree
  refine h.act ((h.slot t).create hv) (only_create hv.1) ?_ (h.free.create hshared hv.1)
  obtain ⟨f, hf⟩ := taskCreateDeclared_eq hv.1 tag
  show ∀ r ∈ (s.taskCreateDeclared t tag).reports, _
  rw [hf]
  exact h.reporter

theorem Sound.exec_join (h : Sound s) (ha : s.Enabled (.join c t)) : Sound (s.exec (.join c t)) := by
  obtain ⟨hlt, hout, halive, hended⟩ := ha
  have hbusy : s.slotFree t = false := not_slotFree fun hc => by
    rcases halive with hr | hr
    · exact hr hc.1.1
    · exact hr hc.2.1
  exact h.act ((h.slot t).join hlt hout (.inl halive) hended) (only_taskRef hout) h.reporter (h.free.join hbusy c)

theorem Sound.exec_leave (h : Sound s) (ha : s.Enabled (.leave c)) : Sound (s.exec (.leave c)) := by
  obtain ⟨-, t, seat, hc⟩ := ha
  have he : s.exec (.leave c) = s.leave c t seat := by
    unfold State.exec
    dsimp only
    rw [hc]
  have ho : ¬ s.Over t := (h.slot t).not_over (by rw [hc]; rfl)
  rw [he]
  refine h.act ((h.slot t).leave hc) (only_leave hc) ?_ (h.free.leave ho c seat)
  obtain ⟨f, hf⟩ := taskRelease_eq s t
  unfold State.leave
  rw [hf]
  exact h.reporter

theorem Sound.exec_sweepEnd (h : Sound s) (ha : s.Enabled (.sweepEnd c)) : Sound (s.exec (.sweepEnd c)) := by
  obtain ⟨-, t, seat, gen, hc⟩ := ha
  have he : s.exec (.sweepEnd c) = s.sweepEnd c t seat gen := by
    unfold State.exec
    dsimp only
    rw [hc]
  have hpos := (h.slot t).swept_pos hc
  rw [he]
  refine h.act ((h.slot t).sweepEnd hc) (only_sweepEnd hpos hc) ?_ (h.free.sweepEnd hpos c seat gen)
  obtain ⟨f, dead, hf⟩ := sweepEnd_eq hpos c seat gen
  rw [hf]
  intro r hr
  dsimp only at hr
  split_ifs at hr
  · rcases List.mem_cons.1 hr with rfl | hr
    · exact ((h.slot t).sweeper c seat gen hc).2.1
    · exact h.reporter r hr
  · exact h.reporter r hr

theorem Sound.exec_dropHold (h : Sound s) : Sound (s.exec (.dropHold t)) := by
  refine h.act (h.slot t).dropHold (only_dropHold s t) ?_ (h.free.dropHold t)
  show ∀ r ∈ (s.taskDropHold t).reports, _
  by_cases htag : (s.task t).creatorTag = 0
  · rw [taskDropHold, if_pos htag]
    exact h.reporter
  · obtain ⟨f, hf⟩ := taskDropHold_eq htag
    rw [hf]
    exact h.reporter

theorem Sound.exec_markEnded (h : Sound s) : Sound (s.exec (.markEnded t)) := by
  refine h.act (h.slot t).markEnded ?_ h.reporter (h.free.congr rfl rfl fun t' hfree => ?_)
  · exact ⟨rfl, fun _ ht => update_of_ne ht _ _, fun _ _ => rfl, fun _ _ => rfl, fun _ _ => rfl, fun _ _ _ => rfl,
      fun _ => .inl rfl⟩
  · unfold slotFree at *
    rcases eq_or_ne t' t with rfl | hne
    · rw [show (s.exec (.markEnded t')).task t' = _ from update_self ..]
      exact hfree
    · rw [show (s.exec (.markEnded t)).task t' = _ from update_of_ne hne _ _]
      exact hfree

theorem Sound.exec_retirePay (h : Sound s) (ha : s.Enabled (.retirePay b t)) : Sound (s.exec (.retirePay b t)) := by
  refine h.act (t := t) ((h.slot t).retiring (f := s.free) fun b' k hm => ?_) ?_ h.reporter
    (h.free.congr rfl rfl fun t' hfree => ?_)
  · rw [update_self] at hm
    rcases List.mem_cons.1 hm with he | hm
    · exact (Prod.mk.inj he).2
    · exact (h.slot t).retire b' k hm
  · exact ⟨rfl, fun _ _ => rfl, fun _ ht => update_of_ne ht _ _, fun _ _ => rfl, fun _ _ => rfl, fun _ _ _ => rfl,
      fun _ => .inl rfl⟩
  · have hne : t' ≠ t := by
      rintro rfl
      have hover := ((slotFree_iff s t').1 hfree).1
      rcases ha with hr | hr
      · exact hr hover.1
      · exact hr hover.2
    unfold slotFree at *
    rw [show (s.exec (.retirePay b t)).retiring t' = _ from update_of_ne hne _ _]
    exact hfree

theorem Sound.exec_retireUnpay (h : Sound s) (ha : s.Enabled (.retireUnpay b t)) : Sound (s.exec (.retireUnpay b t)) := by
  obtain ⟨k, hk⟩ := ha
  set r := update s.retiring t ((s.retiring t).eraseP fun x => x.1 == b) with hr
  have hmid : FreeSound { s with retiring := r } := by
    refine h.free.congr rfl rfl fun t' hfree => ?_
    have hne : t' ≠ t := by
      rintro rfl
      rw [((slotFree_iff s t').1 hfree).2.2] at hk
      cases hk
    unfold slotFree at *
    dsimp only
    rw [hr, update_of_ne hne]
    exact hfree
  obtain ⟨f, hf⟩ := freePut_eq { s with retiring := r } t
  have he : s.exec (.retireUnpay b t) = { s with retiring := r, free := f } := hf
  have hfree := hmid.freePut t
  rw [hf] at hfree
  rw [he]
  refine h.act (t := t) ((h.slot t).retiring fun b' k' hm => ?_) ?_ h.reporter hfree
  · rw [hr, update_self] at hm
    exact (h.slot t).retire b' k' (List.mem_of_mem_eraseP hm)
  · exact ⟨rfl, fun _ _ => rfl, fun _ ht => update_of_ne ht _ _, fun _ _ => rfl, fun _ _ => rfl, fun _ _ _ => rfl,
      fun _ => .inl rfl⟩

theorem Sound.exec (h : Sound s) {a : Act} (ha : s.Enabled a) : Sound (s.exec a) := by
  cases a with
  | taskFor c => exact h.exec_taskFor ha
  | create t tag => exact h.exec_create ha
  | join c t => exact h.exec_join ha
  | leave c => exact h.exec_leave ha
  | sweepEnd c => exact h.exec_sweepEnd ha
  | dropHold t => exact h.exec_dropHold
  | markEnded t => exact h.exec_markEnded
  | retirePay b t => exact h.exec_retirePay ha
  | retireUnpay b t => exact h.exec_retireUnpay ha

end State

theorem Reachable.sound {s : State} (h : Reachable s) : s.Sound := by
  induction h with
  | boot size shared threads => exact State.Sound.boot size shared threads
  | step _ a ha ih => exact ih.exec ha

/-- In every run: the death of an incarnation is reported once where it had a member and its creator still held it when its
last sweep ended, and never else; only once nobody of it is in the task or sweeps, and by one of its own; a record is not
seated again under a sweep or under a retiring binding; and the free list has free shared records, each once. -/
theorem task_death_reported {s : State} (h : Reachable s) :
    (∀ t seat, s.reportsOf t seat = if s.Owed t seat ∧ (seat = (s.task t).seats → s.Over t) then 1 else 0) ∧
      (∀ t seat, s.reportsOf t seat ≠ 0 → ∀ c, s.thread c ≠ .member t seat ∧ ∀ gen, s.thread c ≠ .sweeps t seat gen) ∧
      (∀ r ∈ s.reports, r.reporter = r.seat) ∧
      (∀ c t seat gen, s.thread c = .sweeps t seat gen → seat = (s.task t).seats) ∧
      (∀ t b seat, (b, seat) ∈ s.retiring t → seat = (s.task t).seats) ∧
      ∃ l, s.free.Lists l ∧ l.Nodup ∧ ∀ t ∈ l, t < s.shared ∧ s.slotFree t = true := by
  have hsound := h.sound
  obtain ⟨l, hl, hmem⟩ := hsound.free
  refine ⟨fun t seat => ?_, fun t seat hne c => ?_, hsound.reporter,
    fun c t seat gen hc => ((hsound.slot t).sweeper c seat gen hc).2.1, fun t => (hsound.slot t).retire, l, hl,
    hl.nodup, hmem⟩
  · have hs := hsound.slot t
    rcases lt_trichotomy seat (s.task t).seats with hlt | rfl | hgt
    · rw [hs.past seat hlt]
      exact if_congr (iff_self_and.2 fun _ he => absurd he hlt.ne) rfl rfl
    · rw [hs.current]
      exact if_congr (and_congr_right fun _ => ⟨fun ho _ => ho, fun ho => ho rfl⟩) rfl rfl
    · obtain ⟨h1, h2, -⟩ := hs.future seat hgt
      rw [h1, if_neg]
      rintro ⟨⟨hj, -⟩, -⟩
      rw [h2] at hj
      cases hj
  · have hs := hsound.slot t
    -- an incarnation with a thread in it is the record's own and not over
    have hin : (s.thread c).on = some t → seat ≠ (s.task t).seats := by
      rintro hon rfl
      exact hne (hs.unreported (hs.not_over hon))
    constructor
    · intro hc
      exact hin (by rw [hc]; rfl) (hs.member c seat hc).2
    · intro gen hc
      exact hin (by rw [hc]; rfl) (hs.sweeper c seat gen hc).2.1

/-- A task with one member that leaves, sweeps and ends; its record is seated again. -/
def oneDeath : List Act := [.create 1 3, .join 0 1, .leave 0, .sweepEnd 0, .create 1 3]

/-- The states after each act of a list. -/
def State.execs (s : State) (as : List Act) : State := as.foldl State.exec s

theorem reachable_oneDeath : Reachable ((boot 2 1 1).execs oneDeath) := by
  have h0 := Reachable.boot 2 1 1
  have h1 := h0.step (.create 1 3) ⟨by decide, by decide, by decide, by decide⟩
  have h2 := h1.step (.join 0 1) ⟨by decide, by decide, .inr (by decide), by decide⟩
  have h3 := h2.step (.leave 0) ⟨by decide, 1, 1, by decide⟩
  have h4 := h3.step (.sweepEnd 0) ⟨by decide, 1, 1, 0, by decide⟩
  exact h4.step (.create 1 3) ⟨by decide, by decide, by decide, by decide⟩

theorem task_death_reported_oneDeath : ((boot 2 1 1).execs oneDeath).reportsOf 1 1 = 1 ∧
    ((boot 2 1 1).execs oneDeath).reportsOf 1 1 =
      if ((boot 2 1 1).execs oneDeath).Owed 1 1 ∧ (1 = (((boot 2 1 1).execs oneDeath).task 1).seats →
        ((boot 2 1 1).execs oneDeath).Over 1) then 1 else 0 :=
  ⟨by decide, (task_death_reported reachable_oneDeath).1 1 1⟩

/-- The creator's hold is dropped while the member runs: the task is over, its record seated again, and its death was never
reported. -/
theorem orphan_death_unreported : ∃ s, Reachable s ∧ s.joined 1 1 = true ∧ 1 < (s.task 1).seats ∧ s.reportsOf 1 1 = 0 := by
  have h0 := Reachable.boot 2 1 1
  have h1 := h0.step (.create 1 3) ⟨by decide, by decide, by decide, by decide⟩
  have h2 := h1.step (.join 0 1) ⟨by decide, by decide, .inr (by decide), by decide⟩
  have h3 := h2.step (.dropHold 1) trivial
  have h4 := h3.step (.leave 0) ⟨by decide, 1, 1, by decide⟩
  have h5 := h4.step (.sweepEnd 0) ⟨by decide, 1, 1, 0, by decide⟩
  exact ⟨_, h5.step (.create 1 3) ⟨by decide, by decide, by decide, by decide⟩, by decide, by decide, by decide⟩

end Death
end KickOS
