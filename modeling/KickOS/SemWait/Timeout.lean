import Mathlib.Tactic

/-! `kos_sem_wait` of `user/src/sem.cc` against its timeout: one call, with the clock, the word the other threads move
and the answers of the kernel. -/

namespace KickOS.SemWait

/-- `KOS_WORD_WAITERS`. -/
def waitersBit : BitVec 32 := 0x80000000

/-- `KOS_TIMEOUT_NONE`. -/
def timeoutNone : BitVec 32 := 0xffffffff

/-- `-KOS_EAGAIN`. -/
def eagain : Int := -11

/-- `-KOS_ETIMEDOUT`. -/
def etimedout : Int := -110

/-- `us_until` of the clock's reading. -/
def usUntil (now deadline : BitVec 64) : BitVec 32 := if deadline ≤ now then 0 else ((deadline - now) / 1000).setWidth 32

/-- The timeout in nanoseconds, as the sum takes it. -/
def nsOf (us : BitVec 32) : BitVec 64 := us.setWidth 64 * 1000

/-- Where the call is. -/
inductive Pc where
  /-- In front of the load of the word. -/
  | load
  /-- At the head of the loop, with the word it read. -/
  | head (v : BitVec 32)
  /-- In front of the first reading of the clock. -/
  | start (v : BitVec 32)
  /-- In front of `us_until`. -/
  | retime (v : BitVec 32)
  /-- In front of the waiters bit. -/
  | bit (v : BitVec 32)
  /-- In front of `kos_word_wait`. -/
  | enter (want : BitVec 32)
  /-- In the kernel since the given time. -/
  | inside (want : BitVec 32) (since : BitVec 64)
  | done (rc : Int)
  deriving DecidableEq

structure St where
  word : BitVec 32
  now : BitVec 64
  pc : Pc := .load
  waitUs : BitVec 32
  deadline : BitVec 64 := 0
  started : Bool := false
  deriving DecidableEq

inductive Op where
  /-- The call goes on. -/
  | run
  /-- The kernel answers the wait. -/
  | answer (rc : Int)
  /-- The clock moves on. -/
  | tick (now : BitVec 64)
  /-- The other threads and the kernel move the word. -/
  | store (w : BitVec 32)
  deriving DecidableEq

namespace St

variable (timeoutUs : BitVec 32) (x : St)

def go : St :=
  match x.pc with
  | .load => { x with pc := .head x.word }
  | .head v =>
    if v &&& ~~~waitersBit ≠ 0 then
      if x.word = v then { x with word := v - 1, pc := .done 0 } else { x with pc := .head x.word }
    else if x.started ∧ timeoutUs ≠ timeoutNone then { x with pc := .retime v }
    else if x.waitUs = 0 then { x with pc := .done etimedout }
    else if x.started then { x with pc := .bit v }
    else if timeoutUs ≠ timeoutNone then { x with started := true, pc := .start v }
    else { x with started := true, pc := .bit v }
  | .start v => { x with deadline := x.now + nsOf timeoutUs, pc := .bit v }
  | .retime v =>
    if usUntil x.now x.deadline = 0 then { x with waitUs := 0, pc := .done etimedout }
    else { x with waitUs := usUntil x.now x.deadline, pc := .bit v }
  | .bit v =>
    if v ||| waitersBit ≠ v then
      if x.word = v then { x with word := v ||| waitersBit, pc := .enter (v ||| waitersBit) } else { x with pc := .head x.word }
    else { x with pc := .enter v }
  | .enter want => { x with pc := .inside want x.now }
  | .inside _ _ => x
  | .done _ => x

/-- A timeout of the kernel is not early, and a wait without one has none. -/
def Timely (since : BitVec 64) (rc : Int) : Prop :=
  rc = etimedout → x.waitUs ≠ timeoutNone ∧ since.toNat + x.waitUs.toNat * 1000 ≤ x.now.toNat

instance (since : BitVec 64) (rc : Int) : Decidable (x.Timely since rc) := inferInstanceAs (Decidable (_ → _))

/-- What the call does with the answer of `kos_word_wait`. -/
def answered (rc : Int) : St :=
  if rc = 1 then { x with pc := .done 0 } else if rc < 0 ∧ rc ≠ eagain then { x with pc := .done rc } else { x with pc := .load }

def step : Op → Option St
  | .run => some (x.go timeoutUs)
  | .answer rc =>
    match x.pc with
    | .inside _ since => if x.Timely since rc then some (x.answered rc) else none
    | _ => none
  | .tick now => if x.now ≤ now then some { x with now := now } else none
  | .store w => some { x with word := w }

end St

/-- A call at the time `called`, with the steps of the run all meeting `P`. -/
inductive Runs (timeoutUs : BitVec 32) (called : BitVec 64) (P : St → Prop) : St → Prop where
  | call (word : BitVec 32) : Runs timeoutUs called P { word := word, now := called, waitUs := timeoutUs }
  | step {x y : St} (op : Op) (hx : Runs timeoutUs called P x) (hp : P x) (hs : x.step timeoutUs op = some y) :
    Runs timeoutUs called P y

/-- The steps of `ops`, each from a state that meets `P`. -/
def St.run (timeoutUs : BitVec 32) (P : St → Prop) [DecidablePred P] (x : St) : List Op → Option St
  | [] => some x
  | op :: ops => if P x then (x.step timeoutUs op).bind fun y => St.run timeoutUs P y ops else none

theorem Runs.run {timeoutUs : BitVec 32} {called : BitVec 64} {P : St → Prop} [DecidablePred P] (ops : List Op) :
    ∀ {x y : St}, Runs timeoutUs called P x → x.run timeoutUs P ops = some y → Runs timeoutUs called P y := by
  induction ops with
  | nil =>
    intro x y hx hy
    cases hy
    exact hx
  | cons op ops ih =>
    intro x y hx hy
    obtain ⟨hp, hy⟩ := Option.ite_none_right_eq_some.1 hy
    obtain ⟨z, hz, hy⟩ := Option.bind_eq_some_iff.1 hy
    exact ih (hx.step op hp hz) hy

/-- The timed-out result is not given early. -/
def NotEarly (timeoutUs : BitVec 32) (called : BitVec 64) (x : St) : Prop :=
  x.pc = .done etimedout → called.toNat + timeoutUs.toNat * 1000 ≤ x.now.toNat

/-- The condition on a step: the deadline is a word, and `us_until` is asked a whole number of microseconds in front of
it or past it. -/
def Whole (timeoutUs : BitVec 32) (x : St) : Prop :=
  match x.pc with
  | .start _ => x.now.toNat + timeoutUs.toNat * 1000 < 2 ^ 64
  | .retime _ => x.deadline ≤ x.now ∨ 1000 ∣ x.deadline.toNat - x.now.toNat
  | _ => True

instance (timeoutUs : BitVec 32) (x : St) : Decidable (Whole timeoutUs x) := by
  unfold Whole
  split <;> infer_instance

/-! ### The invariant -/

section Words

variable {us : BitVec 32} {now deadline : BitVec 64}

theorem toNat_nsOf (us : BitVec 32) : (nsOf us).toNat = us.toNat * 1000 := by
  have hlt := us.isLt
  have hwide : (us.setWidth 64).toNat = us.toNat := by
    rw [BitVec.toNat_setWidth]
    exact Nat.mod_eq_of_lt (by omega)
  have hfits : us.toNat * 1000 < 2 ^ 64 := by omega
  unfold nsOf
  rw [BitVec.toNat_mul, hwide]
  exact Nat.mod_eq_of_lt hfits

theorem toNat_usUntil (hle : now ≤ deadline) (hn : deadline.toNat ≤ now.toNat + us.toNat * 1000) :
    (usUntil now deadline).toNat = (deadline.toNat - now.toNat) / 1000 := by
  have hlt := us.isLt
  have hle' := BitVec.le_def.1 hle
  unfold usUntil
  split
  next h =>
    have heq : deadline.toNat - now.toNat = 0 := Nat.sub_eq_zero_of_le (BitVec.le_def.1 h)
    rw [heq]
    rfl
  next h =>
    have hsub : (deadline - now).toNat = deadline.toNat - now.toNat := BitVec.toNat_sub_of_le hle
    have hdiv : ((deadline - now) / 1000).toNat = (deadline.toNat - now.toNat) / 1000 := by
      rw [BitVec.toNat_udiv, hsub]
      rfl
    rw [BitVec.toNat_setWidth, hdiv]
    exact Nat.mod_eq_of_lt (by omega)

end Words

/-- The time the call may give up at, once the deadline is known. -/
structure Dated (timeoutUs : BitVec 32) (called now deadline : BitVec 64) : Prop where
  late : called.toNat + timeoutUs.toNat * 1000 ≤ deadline.toNat
  near : deadline.toNat ≤ now.toNat + timeoutUs.toNat * 1000

def At (timeoutUs : BitVec 32) (called : BitVec 64) (x : St) : Prop :=
  match x.pc with
  | .load => x.started → Dated timeoutUs called x.now x.deadline
  | .head _ => x.started → Dated timeoutUs called x.now x.deadline
  | .start _ => x.waitUs = timeoutUs
  | .retime _ => x.started ∧ Dated timeoutUs called x.now x.deadline
  | .bit _ => Dated timeoutUs called x.now x.deadline ∧ x.deadline.toNat ≤ x.now.toNat + x.waitUs.toNat * 1000
  | .enter _ => Dated timeoutUs called x.now x.deadline ∧ x.deadline.toNat ≤ x.now.toNat + x.waitUs.toNat * 1000
  | .inside _ since => Dated timeoutUs called x.now x.deadline ∧ x.deadline.toNat ≤ since.toNat + x.waitUs.toNat * 1000
  | .done rc => rc = etimedout → called.toNat + timeoutUs.toNat * 1000 ≤ x.now.toNat

structure Inv (timeoutUs : BitVec 32) (called : BitVec 64) (x : St) : Prop where
  after : called.toNat ≤ x.now.toNat
  first : x.started = false → x.waitUs = timeoutUs
  here : At timeoutUs called x

variable {timeoutUs : BitVec 32} {called : BitVec 64} {x y : St}

theorem inv_call (word : BitVec 32) : Inv timeoutUs called { word := word, now := called, waitUs := timeoutUs } :=
  ⟨le_rfl, fun _ => rfl, fun h => absurd h (by simp)⟩

theorem dated_start (h : Inv timeoutUs called x) (hfits : x.now.toNat + timeoutUs.toNat * 1000 < 2 ^ 64) :
    (x.now + nsOf timeoutUs).toNat = x.now.toNat + timeoutUs.toNat * 1000 ∧
    called.toNat + timeoutUs.toNat * 1000 ≤ x.now.toNat + timeoutUs.toNat * 1000 := by
  refine ⟨?_, Nat.add_le_add_right h.after _⟩
  rw [BitVec.toNat_add, toNat_nsOf]
  exact Nat.mod_eq_of_lt hfits

theorem usUntil_whole (hd : Dated timeoutUs called x.now x.deadline)
    (hw : x.deadline ≤ x.now ∨ 1000 ∣ x.deadline.toNat - x.now.toNat) :
    x.deadline.toNat ≤ x.now.toNat + (usUntil x.now x.deadline).toNat * 1000 := by
  rcases hw with hw | hw
  · exact (BitVec.le_def.1 hw).trans (Nat.le_add_right ..)
  rcases Nat.le_total x.deadline.toNat x.now.toNat with hle | hle
  · exact hle.trans (Nat.le_add_right ..)
  · rw [toNat_usUntil (BitVec.le_def.2 hle) hd.near, Nat.div_mul_cancel hw]
    exact (Nat.add_sub_of_le hle).ge

theorem Inv.go (h : Inv timeoutUs called x) (hne : timeoutUs ≠ timeoutNone) (hpos : timeoutUs ≠ 0) (hw : Whole timeoutUs x) :
    Inv timeoutUs called (x.go timeoutUs) := by
  obtain ⟨hafter, hfirst, hhere⟩ := h
  have hinv : Inv timeoutUs called x := ⟨hafter, hfirst, hhere⟩
  unfold At at hhere
  unfold Whole at hw
  unfold St.go
  split
  next hpc =>
    simp only [hpc] at hhere
    exact ⟨hafter, hfirst, hhere⟩
  next v hpc =>
    simp only [hpc] at hhere
    split
    next hcount =>
      split
      · exact ⟨hafter, hfirst, fun h0 => absurd h0 (by decide)⟩
      · exact ⟨hafter, hfirst, hhere⟩
    next hcount =>
      split
      next hstarted => exact ⟨hafter, hfirst, hstarted.1, hhere hstarted.1⟩
      next hstarted =>
        have hnot : x.started = false := by
          cases hs : x.started
          · rfl
          · exact absurd ⟨hs, hne⟩ hstarted
        -- the first round waits for the whole timeout
        rw [if_neg (hfirst hnot ▸ hpos), if_neg (by rw [hnot]; exact Bool.false_ne_true)]
        exact ⟨hafter, fun h0 => absurd h0.symm Bool.false_ne_true, hfirst hnot⟩
  next v hpc =>
    simp only [hpc] at hhere hw
    obtain ⟨hsum, hlate⟩ := dated_start hinv hw
    exact ⟨hafter, hfirst, ⟨hsum.symm ▸ hlate, hsum.le⟩, by rw [hhere]; exact hsum.le⟩
  next v hpc =>
    simp only [hpc] at hhere hw
    obtain ⟨hstarted, hdated⟩ := hhere
    have hexact := usUntil_whole hdated hw
    have hnot : x.started ≠ false := by simp [hstarted]
    split
    next h0 =>
      rw [h0] at hexact
      exact ⟨hafter, fun h1 => absurd h1 hnot, fun _ => hdated.late.trans hexact⟩
    next h0 => exact ⟨hafter, fun h1 => absurd h1 hnot, hdated, hexact⟩
  next v hpc =>
    simp only [hpc] at hhere
    split
    next hbit =>
      split
      · exact ⟨hafter, hfirst, hhere⟩
      · exact ⟨hafter, hfirst, fun _ => hhere.1⟩
    next hbit => exact ⟨hafter, hfirst, hhere⟩
  next want hpc =>
    simp only [hpc] at hhere
    exact ⟨hafter, hfirst, hhere⟩
  next => exact hinv
  next => exact hinv

theorem Inv.tick (h : Inv timeoutUs called x) {now : BitVec 64} (hle : x.now ≤ now) :
    Inv timeoutUs called { x with now := now } := by
  obtain ⟨hafter, hfirst, hhere⟩ := h
  have hle := BitVec.le_def.1 hle
  have hdated : Dated timeoutUs called x.now x.deadline → Dated timeoutUs called now x.deadline := fun hd =>
    ⟨hd.late, hd.near.trans (Nat.add_le_add_right hle _)⟩
  refine ⟨hafter.trans hle, hfirst, ?_⟩
  unfold At at hhere ⊢
  dsimp only
  cases hpc : x.pc with
  | load =>
    simp only [hpc] at hhere ⊢
    exact fun hs => hdated (hhere hs)
  | head v =>
    simp only [hpc] at hhere ⊢
    exact fun hs => hdated (hhere hs)
  | start v =>
    simp only [hpc] at hhere ⊢
    exact hhere
  | retime v =>
    simp only [hpc] at hhere ⊢
    exact ⟨hhere.1, hdated hhere.2⟩
  | bit v =>
    simp only [hpc] at hhere ⊢
    exact ⟨hdated hhere.1, hhere.2.trans (Nat.add_le_add_right hle _)⟩
  | enter want =>
    simp only [hpc] at hhere ⊢
    exact ⟨hdated hhere.1, hhere.2.trans (Nat.add_le_add_right hle _)⟩
  | inside want since =>
    simp only [hpc] at hhere ⊢
    exact ⟨hdated hhere.1, hhere.2⟩
  | done rc =>
    simp only [hpc] at hhere ⊢
    exact fun hrc => (hhere hrc).trans hle

theorem Inv.answered (h : Inv timeoutUs called x) {want : BitVec 32} {since : BitVec 64} {rc : Int}
    (hpc : x.pc = .inside want since) (ht : x.Timely since rc) : Inv timeoutUs called (x.answered rc) := by
  obtain ⟨hafter, hfirst, hhere⟩ := h
  simp only [At, hpc] at hhere
  obtain ⟨hdated, hleft⟩ := hhere
  unfold St.answered
  split
  · exact ⟨hafter, hfirst, fun h0 => absurd h0 (by decide)⟩
  split
  · exact ⟨hafter, hfirst, fun hrc => hdated.late.trans (hleft.trans (ht hrc).2)⟩
  · exact ⟨hafter, hfirst, fun _ => hdated⟩

theorem Inv.step (h : Inv timeoutUs called x) (hne : timeoutUs ≠ timeoutNone) (hpos : timeoutUs ≠ 0)
    (hw : Whole timeoutUs x) {op : Op} (hs : x.step timeoutUs op = some y) : Inv timeoutUs called y := by
  cases op with
  | run =>
    cases hs
    exact h.go hne hpos hw
  | answer rc =>
    dsimp only [St.step] at hs
    split at hs
    next want since hpc =>
      obtain ⟨ht, hs⟩ := Option.ite_none_right_eq_some.1 hs
      cases hs
      exact h.answered hpc ht
    next => cases hs
  | tick now =>
    obtain ⟨hle, hs⟩ := Option.ite_none_right_eq_some.1 hs
    cases hs
    exact h.tick hle
  | store w =>
    cases hs
    exact ⟨h.after, h.first, h.here⟩

theorem Runs.inv (h : Runs timeoutUs called (Whole timeoutUs) x) (hne : timeoutUs ≠ timeoutNone) (hpos : timeoutUs ≠ 0) :
    Inv timeoutUs called x := by
  induction h with
  | call word => exact inv_call word
  | step op _ hw hs ih => exact ih.step hne hpos hw hs

/-- In a run that asks for the time left at whole microseconds only, the call does not give up early. -/
theorem sem_wait_not_early (hne : timeoutUs ≠ timeoutNone) (hpos : timeoutUs ≠ 0)
    (h : Runs timeoutUs called (Whole timeoutUs) x) : NotEarly timeoutUs called x := by
  intro hpc
  have hhere := (h.inv hne hpos).here
  unfold At at hhere
  rw [hpc] at hhere
  exact hhere rfl

/-- A wait of two microseconds, woken without a unit in the middle and timed out by the kernel. -/
def retried : St := { word := waitersBit, now := 2000, pc := .done etimedout, waitUs := 1, deadline := 2000, started := true }

theorem sem_wait_not_early_retried : Runs 2 0 (Whole 2) retried ∧ NotEarly 2 0 retried := by
  have hr : Runs 2 0 (Whole 2) retried := Runs.run [.run, .run, .run, .run, .run, .tick 1000, .answer 0, .run, .run,
      .run, .run, .run, .tick 2000, .answer etimedout] (.call 0) (by decide)
  exact ⟨hr, sem_wait_not_early (by decide) (by decide) hr⟩

/-- Beaten to the unit half a microsecond in front of the deadline, the call gives up at once. -/
theorem gives_up_early : ∃ x, Runs 1 0 (fun _ => True) x ∧ ¬ NotEarly 1 0 x := by
  refine ⟨{ word := 0, now := 500, pc := .done etimedout, waitUs := 0, deadline := 1000, started := true },
    Runs.run [.run, .run, .run, .run, .store 1, .store 0, .tick 500, .run, .answer eagain, .run, .run, .run] (.call 0)
      (by decide),
    fun h => absurd (h rfl) (by decide)⟩

end KickOS.SemWait
