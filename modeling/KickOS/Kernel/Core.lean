import KickOS.Kernel.Sync

/-! What the scheduler leaves alone.

Wakes, switches, priority changes and deadlines write only the scheduling fields: states, priorities, ready lists,
the timer list, the current thread, and the two marks a switch sets. `core` forgets these, so a scheduler step
keeps the core, and whatever an invariant reads of the core alone holds across it. -/

namespace KickOS

/-- A thread without its scheduling fields. -/
def Thread.core (x : Thread) : Thread :=
  { x with state := .inactive, prio := 0, dying := false, onTimer := false, deadline := 0, callFrameParked := false }

namespace Kernel

variable {s s' : Kernel} {t c : Tid} {p : Nat}

/-- The state without its scheduling fields. -/
def core (s : Kernel) : Kernel :=
  { s with thr := fun t => (s.thr t).core, current := none, ready := fun _ => [], sleepq := [] }

theorem core_ext (ht : ∀ t, (s'.thr t).core = (s.thr t).core)
    (hk : { s' with thr := s.thr, current := s.current, ready := s.ready, sleepq := s.sleepq } = s) :
    s'.core = s.core := by
  have h : s'.core = { s with thr := fun t => (s'.thr t).core, current := none, ready := fun _ => [], sleepq := [] } := by
    conv_rhs => rw [← hk]
    rfl
  rw [h]
  simp only [core, ht]

theorem core_read {α : Sort*} (g : Kernel → α) (h : s'.core = s.core) (hg : ∀ k : Kernel, g k.core = g k) :
    g s' = g s := by
  rw [← hg s', h, hg s]

theorem core_onThr {f : Thread → Thread} (hf : (f (s.thr t)).core = (s.thr t).core) : (s.onThr t f).core = s.core := by
  refine core_ext (fun u => ?_) rfl
  by_cases hu : u = t
  · subst hu; simpa [onThr, setThr] using hf
  · simp [onThr, setThr, hu]

theorem onThr_core_congr {f : Thread → Thread} (h : s'.core = s.core) (hf : ∀ x, (f x.core).core = (f x).core) :
    (s'.onThr t f).core = (s.onThr t f).core := by
  have hk : ∀ k : Kernel, (k.onThr t f).core = (k.core.onThr t f).core := fun k => by
    simp only [core, onThr, setThr, Kernel.mk.injEq, and_true]
    funext u
    by_cases hu : u = t
    · subst hu; simp [hf]
    · simp [hu, Thread.core]
  rw [hk s', h, ← hk s]

theorem onQueue_core_congr {q : Queue} {f : List Tid → List Tid} (h : s'.core = s.core) :
    (s'.onQueue q f).core = (s.onQueue q f).core := by
  have hk : ∀ k : Kernel, (k.onQueue q f).core = (k.core.onQueue q f).core := fun k => by cases q <;> rfl
  rw [hk s', h, ← hk s]

/-! ### Priorities -/

theorem setPrio_thr : (s.setPrio t p).thr = Function.update s.thr t { s.thr t with prio := p } := by
  unfold setPrio
  split_ifs with hp
  · subst hp; simp
  · rfl
  · rfl

@[simp] theorem setPrio_core : (s.setPrio t p).core = s.core := by
  refine core_ext (fun u => ?_) (by unfold setPrio; split_ifs <;> rfl)
  rw [setPrio_thr]
  by_cases hu : u = t
  · subst hu; simp [Thread.core]
  · simp [hu]

@[simp] theorem recompute_core : (s.recompute t).core = s.core := setPrio_core

/-! ### The timer list -/

@[simp] theorem deadlineArm_core {d : Option Nat} : (s.deadlineArm t d).core = s.core := by
  cases d with
  | none => rfl
  | some d => exact core_onThr (f := fun x => { x with onTimer := true, deadline := d }) rfl

@[simp] theorem sleepqRemove_core : (s.sleepqRemove t).core = s.core := by
  unfold sleepqRemove
  split_ifs
  · exact core_onThr (f := fun x => { x with onTimer := false }) rfl
  · rfl

@[simp] theorem deadlineCancel_core : (s.deadlineCancel t).core = s.core := by
  unfold deadlineCancel
  split_ifs
  · exact sleepqRemove_core
  · rfl

/-! ### Switches and wakes -/

@[simp] theorem leaveRunning_core : s.leaveRunning.core = s.core := by
  unfold leaveRunning
  split
  · rfl
  · split_ifs
    · exact core_onThr rfl
    · rfl

@[simp] theorem switchBook_core {next : Option Tid} : (s.switchBook next).core = s.core := by
  cases next with
  | none => exact leaveRunning_core
  | some t =>
    unfold switchBook
    dsimp only
    split_ifs
    · rw [core_onThr rfl, core_onThr rfl, core_onThr rfl]
      exact leaveRunning_core
    · rw [core_onThr rfl, core_onThr rfl]
      exact leaveRunning_core

@[simp] theorem pickAndSeat_core : s.pickAndSeat.core = s.core := by
  unfold pickAndSeat
  dsimp only
  split_ifs
  · rfl
  · exact switchBook_core

@[simp] theorem reschedule_core : s.reschedule.core = s.core := pickAndSeat_core

@[simp] theorem rqRotate_core : (s.rqRotate t).core = s.core := by
  unfold rqRotate
  dsimp only
  split_ifs <;> rfl

@[simp] theorem makeReady_core : (s.makeReady t).core = s.core := core_onThr (f := fun x => { x with state := .ready }) rfl

@[simp] theorem wakeNoResched_core : (s.wakeNoResched t).1.core = s.core := by
  unfold wakeNoResched
  dsimp only
  split_ifs
  · exact deadlineCancel_core
  · exact makeReady_core.trans deadlineCancel_core

@[simp] theorem reschedAfterWake_core : (s.reschedAfterWake t).core = s.core := by
  unfold reschedAfterWake
  split
  · exact pickAndSeat_core
  · split_ifs
    · rfl
    · exact pickAndSeat_core

@[simp] theorem wake_core : (s.wake t).core = s.core := by
  unfold wake
  dsimp only
  split_ifs
  · exact reschedAfterWake_core.trans wakeNoResched_core
  · exact wakeNoResched_core

/-! ### Parks -/

theorem parkQueueless_core {edge : WaitEdge} :
    (s.parkQueueless c edge).core = (s.onThr c fun x => { x with queue := none, edge := edge }).core := by
  unfold parkQueueless
  exact onThr_core_congr (core_onThr (s := s) (t := c) (f := fun x => { x with state := .blocked }) rfl) fun _ => rfl

theorem wqBlock_core {q : Queue} {edge : WaitEdge} : (s.wqBlock c q edge).core =
    ((s.onThr c fun x => { x with queue := some q, edge := edge }).onQueue q fun l => l ++ [c]).core := by
  unfold wqBlock
  rw [reschedule_core]
  refine onQueue_core_congr ((onThr_core_congr parkQueueless_core fun _ => rfl).trans ?_)
  simp [onThr, setThr]

end Kernel
end KickOS
