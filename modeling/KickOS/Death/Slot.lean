import KickOS.Death.Model

/-! What holds of one record in every run: its counts are its threads, its generation tells whether it was freed since they
left, and its deaths are reported as the marks of its incarnations say. -/

namespace KickOS
namespace Death
open Function (update update_apply update_eq_self update_idem update_self)

namespace Stage

/-- The record a thread still counts in. -/
def on : Stage → Option Nat
  | .out => none
  | .member t _ => some t
  | .sweeps t _ _ => some t

def isMember (t : Nat) : Stage → Bool
  | .member t' _ => t' == t
  | _ => false

def isSweeper (t : Nat) : Stage → Bool
  | .sweeps t' _ _ => t' == t
  | _ => false

variable {x : Stage} {t : Nat}

theorem isMember_of_on (h : x.on ≠ some t) : x.isMember t = false := by
  cases x with
  | member t' seat =>
    have : t' ≠ t := fun he => h (by rw [he]; rfl)
    simpa [isMember] using this
  | _ => rfl

theorem isSweeper_of_on (h : x.on ≠ some t) : x.isSweeper t = false := by
  cases x with
  | sweeps t' seat gen =>
    have : t' ≠ t := fun he => h (by rw [he]; rfl)
    simpa [isSweeper] using this
  | _ => rfl

end Stage

namespace State

variable {s s' : State} {t t' c seat b tag : Nat} {gen : BitVec 16}

/-- How often the death of an incarnation was reported. -/
def reportsOf (s : State) (t seat : Nat) : Nat := s.reports.countP fun r => r.t == t && r.seat == seat

/-- Nobody is in the task any more, and nobody sweeps. -/
def Over (s : State) (t : Nat) : Prop := (s.task t).refcount = 0 ∧ (s.task t).sweeping = 0

/-- An incarnation whose creator kept its hold past the last sweep of its members. -/
def Owed (s : State) (t seat : Nat) : Prop := s.joined t seat = true ∧ s.orphaned t seat = false

instance (s : State) (t : Nat) : Decidable (s.Over t) := inferInstanceAs (Decidable (_ ∧ _))

instance (s : State) (t seat : Nat) : Decidable (s.Owed t seat) := inferInstanceAs (Decidable (_ ∧ _))

instance (s : State) (t : Nat) : Decidable (s.Alive t) := inferInstanceAs (Decidable (_ ∨ _))

structure SlotSound (s : State) (t : Nat) : Prop where
  refs : (s.task t).refcount = Lib.count s.threads fun c => (s.thread c).isMember t
  sweeps : (s.task t).sweeping = Lib.count s.threads fun c => (s.thread c).isSweeper t
  member : ∀ c seat, s.thread c = .member t seat → c < s.threads ∧ seat = (s.task t).seats
  sweeper : ∀ c seat gen, s.thread c = .sweeps t seat gen → c < s.threads ∧ seat = (s.task t).seats ∧
    (s.task t).gen = if s.Alive t then gen else gen + 1
  retire : ∀ b seat, (b, seat) ∈ s.retiring t → seat = (s.task t).seats
  busy : ¬ s.Over t → s.joined t (s.task t).seats = true
  orphan : s.orphaned t (s.task t).seats = true ∨ (s.task t).creatorTag ≠ 0 ∨ s.Over t
  held : (s.task t).creatorTag ≠ 0 → s.orphaned t (s.task t).seats = false
  current : s.reportsOf t (s.task t).seats = if s.Owed t (s.task t).seats ∧ s.Over t then 1 else 0
  past : ∀ seat, seat < (s.task t).seats → s.reportsOf t seat = if s.Owed t seat then 1 else 0
  future : ∀ seat, (s.task t).seats < seat → s.reportsOf t seat = 0 ∧ s.joined t seat = false ∧ s.orphaned t seat = false
  ended : s.reportsOf t (s.task t).seats ≠ 0 → (s.task t).ended = true

theorem SlotSound.frame (h : SlotSound s t) (hn : s'.threads = s.threads) (ht : s'.task t = s.task t)
    (hr : s'.retiring t = s.retiring t) (hj : s'.joined t = s.joined t) (ho : s'.orphaned t = s.orphaned t)
    (hrep : ∀ seat, s'.reportsOf t seat = s.reportsOf t seat)
    (hc : ∀ c, s'.thread c = s.thread c ∨ ((s.thread c).on ≠ some t ∧ (s'.thread c).on ≠ some t)) : SlotSound s' t := by
  have hm : ∀ c, (s'.thread c).isMember t = (s.thread c).isMember t := by
    intro c
    rcases hc c with he | ⟨h1, h2⟩
    · rw [he]
    · rw [Stage.isMember_of_on h1, Stage.isMember_of_on h2]
  have hw : ∀ c, (s'.thread c).isSweeper t = (s.thread c).isSweeper t := by
    intro c
    rcases hc c with he | ⟨h1, h2⟩
    · rw [he]
    · rw [Stage.isSweeper_of_on h1, Stage.isSweeper_of_on h2]
  have halive : s'.Alive t ↔ s.Alive t := by unfold Alive; rw [ht]
  have hover : s'.Over t ↔ s.Over t := by unfold Over; rw [ht]
  have howed : ∀ seat, s'.Owed t seat ↔ s.Owed t seat := fun seat => by unfold Owed; rw [hj, ho]
  refine ⟨?_, ?_, fun c seat he => ?_, fun c seat gen he => ?_, ?_, ?_, ?_, ?_, ?_, ?_, ?_, ?_⟩
  · rw [ht, hn, h.refs]
    simp only [hm]
  · rw [ht, hn, h.sweeps]
    simp only [hw]
  · rw [ht, hn]
    refine h.member c seat ?_
    rcases hc c with hs | ⟨-, h2⟩
    · rwa [← hs]
    · rw [he] at h2
      exact absurd rfl h2
  · rw [ht, hn]
    simp only [halive]
    refine h.sweeper c seat gen ?_
    rcases hc c with hs | ⟨-, h2⟩
    · rwa [← hs]
    · rw [he] at h2
      exact absurd rfl h2
  · rw [hr, ht]
    exact h.retire
  · rw [hover, hj, ht]
    exact h.busy
  · rw [hover, ho, ht]
    exact h.orphan
  · rw [ho, ht]
    exact h.held
  · rw [ht, hrep, h.current]
    simp only [howed, hover]
  · intro seat hs
    rw [ht] at hs
    rw [hrep, h.past seat hs]
    simp only [howed]
  · rw [ht, hj, ho]
    intro seat hs
    rw [hrep]
    exact h.future seat hs
  · rw [ht, hrep]
    exact h.ended

theorem Over.not_alive (h : s.Over t) : s.Alive t ↔ (s.task t).creatorTag ≠ 0 := or_iff_right (not_not.2 h.1)

theorem SlotSound.not_over (h : SlotSound s t) (hc : (s.thread c).on = some t) : ¬ s.Over t := by
  rintro ⟨h1, h2⟩
  rw [h.refs, Lib.count_eq_zero] at h1
  rw [h.sweeps, Lib.count_eq_zero] at h2
  cases hs : s.thread c with
  | out =>
    rw [hs] at hc
    cases hc
  | member t' seat =>
    rw [hs] at hc
    cases hc
    have := h1 c (h.member c seat hs).1
    rw [hs] at this
    simp [Stage.isMember] at this
  | sweeps t' seat gen =>
    rw [hs] at hc
    cases hc
    have := h2 c (h.sweeper c seat gen hs).1
    rw [hs] at this
    simp [Stage.isSweeper] at this

theorem SlotSound.unreported (h : SlotSound s t) (ho : ¬ s.Over t) : s.reportsOf t (s.task t).seats = 0 := by
  rw [h.current, if_neg fun hc => ho hc.2]

theorem mark_self (f : Nat → Nat → Bool) (t seat : Nat) : mark f t seat t seat = true := by simp [mark]

theorem mark_of_ne {f : Nat → Nat → Bool} (h : t' ≠ t ∨ c ≠ seat) : mark f t seat t' c = f t' c := by
  unfold mark
  rcases h with h | h
  · rw [beq_false_of_ne h, Bool.false_and, Bool.false_or]
  · rw [beq_false_of_ne h, Bool.and_false, Bool.false_or]

theorem SlotSound.join (h : SlotSound s t) (hc : c < s.threads) (hout : s.thread c = .out)
    (ha : s.Alive t ∨ s.Over t ∧ s.orphaned t (s.task t).seats = true) (he : (s.task t).ended = false) :
    SlotSound (s.taskRef c t) t := by
  have hnone : s.reportsOf t (s.task t).seats = 0 := by
    by_contra hne
    rw [h.ended hne] at he
    cases he
  have ht : (s.taskRef c t).task t = { s.task t with refcount := (s.task t).refcount + 1 } := update_self ..
  have hth : (s.taskRef c t).thread = update s.thread c (.member t (s.task t).seats) := rfl
  have halive : (s.taskRef c t).Alive t := .inl (by rw [ht]; exact Nat.succ_ne_zero _)
  have hover : ¬ (s.taskRef c t).Over t := fun ho => by
    rw [Over, ht] at ho
    exact Nat.succ_ne_zero _ ho.1
  have hrep : ∀ seat, (s.taskRef c t).reportsOf t seat = s.reportsOf t seat := fun _ => rfl
  have hjoin : (s.taskRef c t).joined = mark s.joined t (s.task t).seats := rfl
  refine ⟨?_, ?_, fun d k hd => ?_, fun d k g hd => ?_, ?_, fun _ => ?_, ?_, ?_, ?_, fun k hk => ?_, fun k hk => ?_, ?_⟩
  · rw [ht, hth]
    have := Lib.count_update s.thread (.member t (s.task t).seats) (Stage.isMember t) hc
    rw [hout] at this
    simp only [Stage.isMember, beq_self_eq_true, Bool.toNat_true, Bool.toNat_false] at this
    show _ + 1 = _
    rw [h.refs]
    exact this.symm
  · rw [ht, hth]
    have := Lib.count_update s.thread (.member t (s.task t).seats) (Stage.isSweeper t) hc
    rw [hout] at this
    show (s.task t).sweeping = _
    rw [h.sweeps]
    exact this.symm
  · rw [ht]
    rw [hth, update_apply] at hd
    split_ifs at hd with hdc
    · cases hd
      exact ⟨hdc ▸ hc, rfl⟩
    · exact h.member d k hd
  · rw [if_pos halive, ht]
    rw [hth, update_apply] at hd
    split_ifs at hd
    rcases ha with ha | ha
    · obtain ⟨h1, h2, h3⟩ := h.sweeper d k g hd
      rw [if_pos ha] at h3
      exact ⟨h1, h2, h3⟩
    · exact absurd ha.1 (h.not_over (by rw [hd]; rfl))
  · rw [ht]
    exact h.retire
  · rw [ht, hjoin]
    exact mark_self ..
  · rw [ht]
    rcases h.orphan with ho | ho | ho
    · exact .inl ho
    · exact .inr (.inl ho)
    · rcases ha with ha | ha
      · exact .inr (.inl (ho.not_alive.1 ha))
      · exact .inl ha.2
  · rw [ht]
    exact h.held
  · rw [if_neg fun hx => hover hx.2, hrep, ht]
    exact hnone
  · rw [ht] at hk
    have hk' : k < (s.task t).seats := hk
    rw [hrep, h.past k hk']
    have howed : (s.taskRef c t).Owed t k ↔ s.Owed t k := by
      unfold Owed
      rw [hjoin, mark_of_ne (.inr hk'.ne)]
      rfl
    simp only [howed]
  · rw [ht] at hk
    have hk' : (s.task t).seats < k := hk
    rw [hrep, hjoin, mark_of_ne (.inr hk'.ne')]
    exact h.future k hk'
  · rw [hrep, ht]
    exact fun hne => absurd hnone hne

/-! ### What each function leaves of the record -/

theorem freePut_eq (s : State) (t : Nat) : ∃ f, s.freePut t = { s with free := f } := by
  unfold freePut
  split_ifs
  · exact ⟨s.free, rfl⟩
  · exact ⟨s.free.push t, rfl⟩

theorem freeTask_eq (s : State) (t : Nat) : ∃ f, s.freeTask t = { s with
    task := update s.task t { s.task t with creatorTag := 0, gen := (s.task t).gen + 1 }, free := f } := by
  unfold freeTask setTask
  obtain ⟨f, hf⟩ := freePut_eq { s with
    task := update s.task t { s.task t with creatorTag := 0, gen := (s.task t).gen + 1 } } t
  exact ⟨f, hf⟩

theorem taskRelease_eq (s : State) (t : Nat) : ∃ f, s.taskRelease t = { s with
    task := update s.task t { s.task t with
      refcount := (s.task t).refcount - 1
      sweeping := (s.task t).sweeping + 1
      gen := if (s.task t).refcount - 1 = 0 ∧ (s.task t).creatorTag = 0 then (s.task t).gen + 1 else (s.task t).gen }
    free := f } := by
  have hself : update s.task t { s.task t with
      refcount := (s.task t).refcount - 1, sweeping := (s.task t).sweeping + 1 } t = { s.task t with
      refcount := (s.task t).refcount - 1, sweeping := (s.task t).sweeping + 1 } := update_self ..
  unfold taskRelease setTask
  dsimp only
  by_cases hfree : (s.task t).refcount - 1 = 0 ∧ (s.task t).creatorTag = 0
  · obtain ⟨f, hf⟩ := freeTask_eq { s with task := update s.task t { s.task t with
      refcount := (s.task t).refcount - 1, sweeping := (s.task t).sweeping + 1 } } t
    refine ⟨f, ?_⟩
    rw [if_pos (by rw [hself]; exact hfree), hf, if_pos hfree]
    dsimp only
    rw [update_self, update_idem, ← hfree.2]
  · refine ⟨s.free, ?_⟩
    rw [if_neg (by rw [hself]; exact hfree), if_neg hfree]

theorem taskDropHold_eq (h : (s.task t).creatorTag ≠ 0) : ∃ f, s.taskDropHold t = { s with
    task := update s.task t { s.task t with
      creatorTag := 0
      gen := if (s.task t).refcount = 0 then (s.task t).gen + 1 else (s.task t).gen }
    orphaned := if s.Over t then s.orphaned else mark s.orphaned t (s.task t).seats
    free := f } := by
  have hover : (if (s.task t).refcount = 0 ∧ (s.task t).sweeping = 0 then s.orphaned else mark s.orphaned t (s.task t).seats) =
      if s.Over t then s.orphaned else mark s.orphaned t (s.task t).seats := if_congr Iff.rfl rfl rfl
  unfold taskDropHold setTask
  dsimp only
  rw [if_neg h, hover]
  generalize (if s.Over t then s.orphaned else mark s.orphaned t (s.task t).seats) = o
  by_cases hzero : (s.task t).refcount = 0
  · obtain ⟨f, hf⟩ := freeTask_eq { s with task := update s.task t { s.task t with creatorTag := 0 }, orphaned := o } t
    refine ⟨f, ?_⟩
    rw [if_pos hzero, hf, if_pos hzero]
    dsimp only
    rw [update_self, update_idem]
  · refine ⟨s.free, ?_⟩
    rw [if_neg hzero, if_neg hzero]

theorem taskDropHold_over (ho : s.Over t) : ∃ f, s.taskDropHold t = { s with
    task := update s.task t { s.task t with
      creatorTag := 0
      gen := if (s.task t).creatorTag = 0 then (s.task t).gen else (s.task t).gen + 1 }
    free := f } := by
  by_cases h : (s.task t).creatorTag = 0
  · refine ⟨s.free, ?_⟩
    have hself : ({ s.task t with creatorTag := 0, gen := (s.task t).gen } : Task) = s.task t := by rw [← h]
    rw [if_pos h, hself, update_eq_self, taskDropHold, if_pos h]
  · obtain ⟨f, hf⟩ := taskDropHold_eq h
    refine ⟨f, ?_⟩
    rw [hf, if_pos ho, if_pos ho.1, if_neg h]

/-- The sweep that ends is the last of a task its creator still holds. -/
def Dies (s : State) (t : Nat) (gen : BitVec 16) : Prop :=
  (s.task t).gen = gen ∧ (s.task t).sweeping - 1 = 0 ∧ (s.task t).refcount = 0

instance (s : State) (t : Nat) (gen : BitVec 16) : Decidable (s.Dies t gen) := inferInstanceAs (Decidable (_ ∧ _))

theorem sweepEnd_eq (h : (s.task t).sweeping ≠ 0) (c seat : Nat) (gen : BitVec 16) : ∃ f dead, s.sweepEnd c t seat gen = { s with
    task := update s.task t { s.task t with
      sweeping := (s.task t).sweeping - 1
      ended := (s.task t).ended || decide (s.Dies t gen)
      dead := dead }
    thread := update s.thread c .out
    reports := if s.Dies t gen then ⟨t, (s.task t).seats, seat⟩ :: s.reports else s.reports
    free := f } := by
  obtain ⟨f, hf⟩ := freePut_eq (s.setTask t fun x => { x with sweeping := x.sweeping - 1 }) t
  have hx : (s.setTask t fun x => { x with sweeping := x.sweeping - 1 }).task t =
      { s.task t with sweeping := (s.task t).sweeping - 1 } := update_self ..
  have hdone : s.taskSweepDone t gen = ({ s.setTask t fun x => { x with sweeping := x.sweeping - 1 } with free := f },
      decide (s.Dies t gen)) := by
    unfold taskSweepDone
    rw [if_neg h]
    dsimp only
    rw [hf]
    dsimp only
    rw [hx]
    refine Prod.ext rfl (Bool.eq_iff_iff.2 ?_)
    simp only [Bool.and_eq_true, beq_iff_eq, decide_eq_true_eq, and_assoc]
    exact Iff.rfl
  unfold sweepEnd
  rw [hdone]
  dsimp only
  by_cases hd : s.Dies t gen
  · refine ⟨f, true, ?_⟩
    rw [if_pos (decide_eq_true hd), if_pos hd, decide_eq_true hd, Bool.or_true]
    unfold taskReportDeath
    rw [if_neg (by dsimp only; rw [hx]; exact not_or.2 ⟨not_not.2 hd.1, not_not.2 hd.2.2⟩)]
    unfold setTask
    dsimp only
    rw [update_self, update_idem]
  · refine ⟨f, (s.task t).dead, ?_⟩
    rw [if_neg (by simpa using hd), if_neg hd, decide_eq_false hd, Bool.or_false]
    rfl

/-! ### The record through each act on it -/

/-- The record counts as before behind a write to a thread's stage, where its counts follow the write. -/
theorem SlotSound.counts {v : Stage} {m w : Nat} (h : SlotSound s t) (hc : c < s.threads)
    (hm : m + ((s.thread c).isMember t).toNat = (s.task t).refcount + (v.isMember t).toNat)
    (hw : w + ((s.thread c).isSweeper t).toNat = (s.task t).sweeping + (v.isSweeper t).toNat) :
    (m = Lib.count s.threads fun d => (update s.thread c v d).isMember t) ∧
      w = Lib.count s.threads fun d => (update s.thread c v d).isSweeper t := by
  have h1 := Lib.count_update s.thread v (Stage.isMember t) hc
  have h2 := Lib.count_update s.thread v (Stage.isSweeper t) hc
  rw [← h.refs] at h1
  rw [← h.sweeps] at h2
  omega

theorem SlotSound.leave (h : SlotSound s t) (hc : s.thread c = .member t seat) : SlotSound (s.leave c t seat) t := by
  obtain ⟨hlt, rfl⟩ := h.member c seat hc
  have hpos : (s.task t).refcount ≠ 0 := by
    intro hz
    rw [h.refs, Lib.count_eq_zero] at hz
    have hm := hz c hlt
    rw [hc] at hm
    simp [Stage.isMember] at hm
  have hover : ¬ s.Over t := fun ho => hpos ho.1
  have hzero := h.unreported hover
  obtain ⟨f, hf⟩ := taskRelease_eq s t
  unfold State.leave
  rw [hf]
  generalize hx : ({ s.task t with
      refcount := (s.task t).refcount - 1
      sweeping := (s.task t).sweeping + 1
      gen := if (s.task t).refcount - 1 = 0 ∧ (s.task t).creatorTag = 0 then (s.task t).gen + 1 else (s.task t).gen } : Task) = x
  set s' : State := { s with
    task := update s.task t x
    free := f
    thread := update s.thread c (.sweeps t (s.task t).seats (s.task t).gen) } with hs'
  have ht : s'.task t = x := update_self ..
  have hseats : x.seats = (s.task t).seats := by rw [← hx]
  have hover' : ¬ s'.Over t := fun ho => by
    rw [Over, ht, ← hx] at ho
    exact Nat.succ_ne_zero _ ho.2
  have halive : s'.Alive t ↔ ¬ ((s.task t).refcount - 1 = 0 ∧ (s.task t).creatorTag = 0) := by
    rw [Alive, ht, ← hx, not_and_or]
  have hgen : x.gen = if s'.Alive t then (s.task t).gen else (s.task t).gen + 1 := by
    rw [← hx]
    simp only [halive]
    split_ifs <;> rfl
  have hcount := h.counts (v := .sweeps t (s.task t).seats (s.task t).gen) (m := x.refcount) (w := x.sweeping) hlt
    (by rw [hc, ← hx]; simp [Stage.isMember]; omega) (by rw [hc, ← hx]; simp [Stage.isSweeper])
  refine ⟨?_, ?_, fun d k hd => ?_, fun d k g hd => ?_, ?_, fun _ => ?_, ?_, ?_, ?_, ?_, ?_, ?_⟩
  · rw [ht]
    exact hcount.1
  · rw [ht]
    exact hcount.2
  · rw [ht, hseats]
    have hd' : update s.thread c (.sweeps t (s.task t).seats (s.task t).gen) d = .member t k := hd
    rw [update_apply] at hd'
    split_ifs at hd' with hdc
    exact h.member d k hd'
  · rw [ht, hseats, hgen]
    have hd' : update s.thread c (.sweeps t (s.task t).seats (s.task t).gen) d = .sweeps t k g := hd
    rw [update_apply] at hd'
    split_ifs at hd' with hdc
    · cases hd'
      exact ⟨hdc ▸ hlt, rfl, rfl⟩
    · obtain ⟨h1, h2, h3⟩ := h.sweeper d k g hd'
      rw [if_pos (.inl hpos)] at h3
      rw [h3]
      exact ⟨h1, h2, rfl⟩
  · rw [ht, hseats]
    exact h.retire
  · rw [ht, hseats]
    exact h.busy hover
  · rw [ht, hseats, ← hx]
    rcases h.orphan with ho | ho | ho
    · exact .inl ho
    · exact .inr (.inl ho)
    · exact absurd ho hover
  · rw [ht, hseats, ← hx]
    exact h.held
  · rw [ht, hseats, if_neg fun hc => hover' hc.2]
    exact hzero
  · rw [ht, hseats]
    exact h.past
  · rw [ht, hseats]
    exact h.future
  · rw [ht, hseats]
    exact fun hne => absurd hzero hne

theorem SlotSound.dropHold (h : SlotSound s t) : SlotSound (s.taskDropHold t) t := by
  by_cases htag : (s.task t).creatorTag = 0
  · rw [taskDropHold, if_pos htag]
    exact h
  obtain ⟨f, hf⟩ := taskDropHold_eq htag
  rw [hf]
  generalize hx : ({ s.task t with
      creatorTag := 0
      gen := if (s.task t).refcount = 0 then (s.task t).gen + 1 else (s.task t).gen } : Task) = x
  generalize ho : (if s.Over t then s.orphaned else mark s.orphaned t (s.task t).seats) = o
  set s' : State := { s with task := update s.task t x, orphaned := o, free := f } with hs'
  have ht : s'.task t = x := update_self ..
  have hseats : x.seats = (s.task t).seats := by rw [← hx]
  have hover : s'.Over t ↔ s.Over t := by
    rw [Over, ht, ← hx]
    exact Iff.rfl
  have halive : s'.Alive t ↔ (s.task t).refcount ≠ 0 := by
    rw [Alive, ht, ← hx]
    exact or_iff_left (not_not.2 rfl)
  have hother : ∀ k, k ≠ (s.task t).seats → o t k = s.orphaned t k := by
    intro k hk
    rw [← ho]
    split_ifs
    · rfl
    · exact mark_of_ne (.inr hk)
  refine ⟨?_, ?_, ?_, fun d k g hd => ?_, ?_, ?_, ?_, fun hne => ?_, ?_, fun k hk => ?_, fun k hk => ?_, ?_⟩
  · rw [ht, ← hx]
    exact h.refs
  · rw [ht, ← hx]
    exact h.sweeps
  · rw [ht, hseats]
    exact h.member
  · obtain ⟨h1, h2, h3⟩ := h.sweeper d k g hd
    rw [if_pos (.inr htag)] at h3
    refine ⟨h1, by rw [ht, hseats]; exact h2, ?_⟩
    rw [ht, ← hx]
    dsimp only
    rw [h3]
    simp only [halive, ne_eq, ite_not]
  · rw [ht, hseats]
    exact h.retire
  · rw [hover, ht, hseats]
    exact h.busy
  · rw [hover, ht, hseats]
    by_cases hov : s.Over t
    · exact .inr (.inr hov)
    · refine .inl ?_
      show o t _ = true
      rw [← ho, if_neg hov]
      exact mark_self ..
  · rw [ht, ← hx] at hne
    exact absurd rfl hne
  · rw [ht, hseats]
    by_cases hov : s.Over t
    · have howed : s'.Owed t (s.task t).seats ↔ s.Owed t (s.task t).seats := by
        have hsame : o = s.orphaned := by rw [← ho, if_pos hov]
        unfold Owed
        show _ ∧ o t _ = false ↔ _
        rw [hsame]
      rw [show s'.reportsOf t _ = s.reportsOf t _ from rfl, h.current]
      simp only [howed, hover]
    · rw [if_neg fun hc => hov (hover.1 hc.2)]
      exact h.unreported hov
  · rw [ht, hseats] at hk
    have howed : s'.Owed t k ↔ s.Owed t k := by
      unfold Owed
      show _ ∧ o t k = false ↔ _
      rw [hother k hk.ne]
    rw [show s'.reportsOf t _ = s.reportsOf t _ from rfl, h.past k hk]
    simp only [howed]
  · rw [ht, hseats] at hk
    show _ ∧ _ ∧ o t k = false
    rw [hother k hk.ne']
    exact h.future k hk
  · rw [ht, hseats, ← hx]
    exact h.ended

theorem SlotSound.swept_pos (h : SlotSound s t) (hc : s.thread c = .sweeps t seat gen) : (s.task t).sweeping ≠ 0 := by
  intro hz
  rw [h.sweeps, Lib.count_eq_zero] at hz
  have hm := hz c (h.sweeper c seat gen hc).1
  rw [hc] at hm
  simp [Stage.isSweeper] at hm

theorem SlotSound.sweepEnd (h : SlotSound s t) (hc : s.thread c = .sweeps t seat gen) :
    SlotSound (s.sweepEnd c t seat gen) t := by
  have hpos := h.swept_pos hc
  obtain ⟨hlt, rfl, hgen⟩ := h.sweeper c seat gen hc
  have hover : ¬ s.Over t := fun ho => hpos ho.2
  have hzero := h.unreported hover
  obtain ⟨f, dead, hf⟩ := sweepEnd_eq hpos c (s.task t).seats gen
  rw [hf]
  generalize hx : ({ s.task t with
      sweeping := (s.task t).sweeping - 1
      ended := (s.task t).ended || decide (s.Dies t gen)
      dead := dead } : Task) = x
  set s' : State := { s with
    task := update s.task t x
    thread := update s.thread c .out
    reports := if s.Dies t gen then ⟨t, (s.task t).seats, (s.task t).seats⟩ :: s.reports else s.reports
    free := f } with hs'
  have ht : s'.task t = x := update_self ..
  have hseats : x.seats = (s.task t).seats := by rw [← hx]
  have halive : s'.Alive t ↔ s.Alive t := by
    rw [Alive, ht, ← hx]
    exact Iff.rfl
  have hother : ∀ k, k ≠ (s.task t).seats → s'.reportsOf t k = s.reportsOf t k := by
    intro k hk
    show List.countP _ (if s.Dies t gen then _ else _) = _
    split_ifs
    · rw [List.countP_cons_of_neg]
      · rfl
      · simpa using hk.symm
    · rfl
  have hself : s'.reportsOf t (s.task t).seats = if s.Dies t gen then 1 else 0 := by
    show List.countP _ (if s.Dies t gen then _ else _) = _
    split_ifs
    · rw [List.countP_cons_of_pos (by simp)]
      exact congrArg (· + 1) hzero
    · exact hzero
  -- the last sweep ends: the generation tells whether the creator's hold, and so the incarnation, is still there
  have hdies : s.Dies t gen ↔ s'.Owed t (s.task t).seats ∧ s'.Over t := by
    have hov : s'.Over t ↔ (s.task t).refcount = 0 ∧ (s.task t).sweeping - 1 = 0 := by
      rw [Over, ht, ← hx]
    rw [hov]
    constructor
    · rintro ⟨h1, h2, h3⟩
      have hal : s.Alive t := by
        by_contra hna
        rw [h1, if_neg hna] at hgen
        exact absurd hgen.symm (by simp)
      have htag : (s.task t).creatorTag ≠ 0 := hal.resolve_left (not_not.2 h3)
      exact ⟨⟨h.busy hover, h.held htag⟩, h3, h2⟩
    · rintro ⟨⟨-, horp⟩, h3, h2⟩
      refine ⟨?_, h2, h3⟩
      have horp' : s.orphaned t (s.task t).seats = false := horp
      rcases h.orphan with ho | ho | ho
      · rw [horp'] at ho
        cases ho
      · rw [hgen, if_pos (.inr ho)]
      · exact absurd ho hover
  have hcount := h.counts (v := .out) (m := x.refcount) (w := x.sweeping) hlt
    (by rw [hc, ← hx]; rfl) (by rw [hc, ← hx]; simp [Stage.isSweeper]; omega)
  refine ⟨?_, ?_, fun d k hd => ?_, fun d k g hd => ?_, ?_, fun _ => ?_, ?_, ?_, ?_, fun k hk => ?_, fun k hk => ?_,
    fun hne => ?_⟩
  · rw [ht]
    exact hcount.1
  · rw [ht]
    exact hcount.2
  · rw [ht, hseats]
    have hd' : update s.thread c .out d = .member t k := hd
    rw [update_apply] at hd'
    split_ifs at hd'
    exact h.member d k hd'
  · have hd' : update s.thread c .out d = .sweeps t k g := hd
    rw [update_apply] at hd'
    split_ifs at hd'
    rw [ht, hseats, ← hx]
    simp only [halive]
    exact h.sweeper d k g hd'
  · rw [ht, hseats]
    exact h.retire
  · rw [ht, hseats]
    exact h.busy hover
  · rw [ht, hseats, ← hx]
    rcases h.orphan with ho | ho | ho
    · exact .inl ho
    · exact .inr (.inl ho)
    · exact absurd ho hover
  · rw [ht, hseats, ← hx]
    exact h.held
  · rw [ht, hseats, hself]
    simp only [hdies]
  · rw [ht, hseats] at hk
    rw [hother k hk.ne, h.past k hk]
    exact if_congr Iff.rfl rfl rfl
  · rw [ht, hseats] at hk
    rw [hother k hk.ne']
    exact h.future k hk
  · rw [ht, hseats, hself] at hne
    rw [ht, ← hx]
    dsimp only
    split_ifs at hne with hd
    · rw [decide_eq_true hd, Bool.or_true]
    · exact absurd rfl hne

theorem SlotSound.reseat {x : Task} {f : Lib.HeadList Nat} {n : Nat} {o : Nat → Nat → Bool} (h : SlotSound s t) (ho : s.Over t)
    (hr : s.retiring t = []) (hx : x.refcount = 0 ∧ x.sweeping = 0 ∧ x.seats = (s.task t).seats + 1)
    (hnew : x.creatorTag ≠ 0 → o t ((s.task t).seats + 1) = false)
    (hold : ∀ k, k ≠ (s.task t).seats + 1 → o t k = s.orphaned t k) :
    SlotSound { s with task := update s.task t x, free := f, fresh := n, orphaned := o } t := by
  obtain ⟨hx1, hx2, hx3⟩ := hx
  set s' : State := { s with task := update s.task t x, free := f, fresh := n, orphaned := o } with hs'
  have ht : s'.task t = x := update_self ..
  have hfut := h.future ((s.task t).seats + 1) (Nat.lt_succ_self _)
  have hnobody : ∀ c, (s.thread c).on ≠ some t := fun c hc => h.not_over hc ho
  have hover : s'.Over t := by
    rw [Over, ht]
    exact ⟨hx1, hx2⟩
  refine ⟨?_, ?_, fun c k hc => ?_, fun c k g hc => ?_, fun b k hb => ?_, fun hno => absurd hover hno, .inr (.inr hover),
    fun hne => ?_, ?_, fun k hk => ?_, fun k hk => ?_, fun hne => ?_⟩
  · rw [ht, hx1, ← ho.1]
    exact h.refs
  · rw [ht, hx2, ← ho.2]
    exact h.sweeps
  · have hc' : s.thread c = .member t k := hc
    exact absurd (by rw [hc']; rfl) (hnobody c)
  · have hc' : s.thread c = .sweeps t k g := hc
    exact absurd (by rw [hc']; rfl) (hnobody c)
  · have hb' : (b, k) ∈ s.retiring t := hb
    rw [hr] at hb'
    cases hb'
  · rw [ht] at hne
    rw [ht, hx3]
    exact hnew hne
  · rw [ht, hx3, if_neg]
    · exact hfut.1
    · rintro ⟨⟨hj, -⟩, -⟩
      have hj' : s.joined t ((s.task t).seats + 1) = true := hj
      rw [hfut.2.1] at hj'
      cases hj'
  · rw [ht, hx3] at hk
    have howed : s'.Owed t k ↔ s.Owed t k := by
      unfold Owed
      show _ ∧ o t k = false ↔ _
      rw [hold k hk.ne]
    have hrep : s.reportsOf t k = if s.Owed t k then 1 else 0 := by
      rcases Nat.lt_succ_iff_lt_or_eq.1 hk with hlt | rfl
      · exact h.past k hlt
      · rw [h.current]
        exact if_congr (and_iff_left ho) rfl rfl
    show s.reportsOf t k = _
    rw [hrep]
    simp only [howed]
  · rw [ht, hx3] at hk
    show _ ∧ _ ∧ o t k = false
    rw [hold k hk.ne']
    exact h.future k (Nat.lt_of_succ_lt hk)
  · rw [ht, hx3] at hne
    exact absurd hfut.1 hne

theorem SlotSound.markEnded (h : SlotSound s t) : SlotSound (s.exec (.markEnded t)) t := by
  have ht : (s.exec (.markEnded t)).task t = { s.task t with ended := true } := update_self ..
  refine ⟨?_, ?_, ?_, fun d k g hd => ?_, ?_, ?_, ?_, ?_, ?_, ?_, ?_, ?_⟩
  all_goals simp only [Over, Alive, ht]
  · exact h.refs
  · exact h.sweeps
  · exact h.member
  · exact h.sweeper d k g hd
  · exact h.retire
  · exact h.busy
  · exact h.orphan
  · exact h.held
  · exact h.current
  · exact h.past
  · exact h.future
  · exact fun _ => trivial

theorem SlotSound.retiring {r : Nat → List (Nat × Nat)} {f : Lib.HeadList Nat} (h : SlotSound s t)
    (hr : ∀ b k, (b, k) ∈ r t → k = (s.task t).seats) : SlotSound { s with retiring := r, free := f } t where
  refs := h.refs
  sweeps := h.sweeps
  member := h.member
  sweeper := h.sweeper
  retire := hr
  busy := h.busy
  orphan := h.orphan
  held := h.held
  current := h.current
  past := h.past
  future := h.future
  ended := h.ended

end State

end Death
end KickOS
