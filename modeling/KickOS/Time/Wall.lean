import KickOS.Time.Wakes

/-! Wall-clock deadlines through sets of the wall clock.

A marked deadline is kept on the monotonic timeline and moved by what a set moves the wall clock. It follows the wall clock as
long as no set takes back more than the one before it gave, for a wait that one had already ended: the floor of the first move
is then part of the second. -/

namespace KickOS
namespace Time

open Lib.Linked State

namespace State

variable {s s' : State} {t : Nat} {l : List Nat} {a : Act}

/-- What the wall clock reads at an instant, if nobody sets it before. -/
def wallAt (s : State) (instant : Nat) : Nat := (instant + s.offset) % 2 ^ 64

/-- The later of a wait's arm and the last set. -/
def keyedAt (s : State) (t : Nat) : Nat := max (s.thread t).armedAt s.lastSet

/-- The first instant at which the wall clock reaches what the thread waits for. -/
def Reaches (s : State) (t instant : Nat) : Prop :=
  IsLeast { i | s.keyedAt t ≤ i ∧ (s.thread t).target ≤ s.wallAt i } instant

/-- The deadline is no earlier than that instant, and no later than the timer's minimum after it or after the last set. -/
def Follows (s : State) (t : Nat) : Prop :=
  ∃ instant, s.Reaches t instant ∧ instant ≤ (s.thread t).deadline ∧
    (s.thread t).deadline ≤ max (s.keyedAt t) instant + minDelta

/-- The monotonic clock has room for the wait of an arm. -/
def ArmFits (s : State) (unixNs : Nat) : Prop :=
  s.clock + minDelta < 2 ^ 64 ∧ s.clock + (unixNs - s.wallAt s.clock) < 2 ^ 64

/-- The monotonic clock has room for a queued wait after a set at an instant that lets the wall clock read `reads`; the set
moves the wall clock by less than 2^63 either way; and where the wait was over at its arm or at the set before, this one does
not turn the wall clock back behind what it read then. -/
def WaitFits (s : State) (instant reads t : Nat) : Prop :=
  instant + minDelta < 2 ^ 64 ∧ instant + ((s.thread t).target - reads) < 2 ^ 64 ∧
    s.wallAt (s.keyedAt t) + (instant - s.keyedAt t) < reads + 2 ^ 63 ∧
    reads ≤ s.wallAt (s.keyedAt t) + (instant - s.keyedAt t) + 2 ^ 63 ∧
    ((s.thread t).target < s.wallAt (s.keyedAt t) → s.wallAt (s.keyedAt t) ≤ reads)

/-- A set that moves the wall clock fits every wait queued for a wall time. -/
def SetFits (s : State) (instant newest : Nat) : Prop :=
  newest = s.offset ∨ ∀ t, (s.thread t).onTimer = true → (s.thread t).timerWall = true →
    s.WaitFits instant ((instant + newest) % 2 ^ 64) t

def Fits (s : State) : Act → Prop
  | .park _ _ limit => limit.onWall = true → s.ArmFits limit.unixNs
  | .set _ unixNs late _ => s.SetFits (s.clock + late) ((unixNs + 2 ^ 64 - s.now) % 2 ^ 64)
  | .rekey _ newest _ => s.SetFits s.clock newest
  | _ => True

end State

/-- The states of the runs whose acts all fit. -/
inductive FitRun : State → Prop
  | boot (count clock : Nat) (comparator : Nat → Nat) : FitRun (boot count clock comparator)
  | step {s : State} (h : FitRun s) (a : Act) (ha : s.Enabled a) (hf : s.Fits a) : FitRun (s.exec a)

namespace State

variable {s s' : State} {t : Nat} {l : List Nat} {a : Act}

/-- A queued wall deadline, against what it waits for. -/
structure Exact (s : State) (t : Nat) : Prop where
  deadline_lt : (s.thread t).deadline < 2 ^ 64
  target_lt : (s.thread t).target < 2 ^ 64
  keyed_le : s.keyedAt t ≤ s.clock
  ahead : s.wallAt (s.keyedAt t) ≤ (s.thread t).target →
    s.keyedAt t + (s.thread t).target ≤ (s.thread t).deadline + s.wallAt (s.keyedAt t) ∧
      (s.thread t).deadline + s.wallAt (s.keyedAt t) ≤ s.keyedAt t + (s.thread t).target + minDelta
  over_ : (s.thread t).target < s.wallAt (s.keyedAt t) → (s.thread t).deadline = s.keyedAt t + minDelta

/-- Every wait queued for a wall time. -/
structure Keyed (s : State) : Prop where
  offset_lt : s.offset < 2 ^ 64
  set_le : s.lastSet ≤ s.clock
  exact : ∀ t, (s.thread t).onTimer = true → (s.thread t).timerWall = true → s.Exact t

theorem Exact.follows (h : Exact s t) : Follows s t := by
  have hmod : ∀ i, s.wallAt i = (i + s.offset) % 2 ^ 64 := fun i => rfl
  by_cases hv : s.wallAt (s.keyedAt t) ≤ (s.thread t).target
  · obtain ⟨h1, h2⟩ := h.ahead hv
    have h3 := h.target_lt
    -- until then the wall clock reads less, as it does not wrap before
    refine ⟨s.keyedAt t + ((s.thread t).target - s.wallAt (s.keyedAt t)), ⟨⟨by omega, ?_⟩, fun i hi => ?_⟩, by omega, ?_⟩
    · rw [hmod] at hv ⊢
      rw [hmod]
      omega
    · obtain ⟨hi1, hi2⟩ := hi
      rw [hmod] at hi2 hv ⊢
      omega
    · have := le_max_right (s.keyedAt t) (s.keyedAt t + ((s.thread t).target - s.wallAt (s.keyedAt t)))
      omega
  · have h1 := h.over_ (not_le.1 hv)
    refine ⟨s.keyedAt t, ⟨⟨le_rfl, (not_le.1 hv).le⟩, fun i hi => hi.1⟩, by omega, ?_⟩
    rw [h1, max_self]

/-! ### What moves a deadline -/

theorem armed_deadline {c wall unixNs : Nat} (h1 : c + minDelta < 2 ^ 64) (h2 : c + (unixNs - wall) < 2 ^ 64) :
    floored (c % 2 ^ 64)
      (if (c % 2 ^ 64 + if wall < unixNs then unixNs - wall else 0) % 2 ^ 64 < c % 2 ^ 64 then u64Max
        else (c % 2 ^ 64 + if wall < unixNs then unixNs - wall else 0) % 2 ^ 64) = c + max (unixNs - wall) minDelta := by
  have hc : c % 2 ^ 64 = c := Nat.mod_eq_of_lt (by omega)
  have hleft : (if wall < unixNs then unixNs - wall else 0) = unixNs - wall := by split_ifs <;> omega
  rw [hc, hleft, Nat.mod_eq_of_lt h2, if_neg (by omega), floored]
  rw [Nat.mod_eq_of_lt h1]
  split_ifs <;> omega

theorem shifted_deadline {d key wall target c reads : Nat} {move : Int} (hc : key ≤ c) (hd : d < 2 ^ 64)
    (hmove : move = (wall + (c - key) : Nat) - (reads : Int))
    (ahead : wall ≤ target → key + target ≤ d + wall ∧ d + wall ≤ key + target + minDelta)
    (hover : target < wall → d = key + minDelta ∧ wall ≤ reads)
    (h1 : c + minDelta < 2 ^ 64) (h2 : c + (target - reads) < 2 ^ 64) :
    floored (c % 2 ^ 64) (shifted d move) < 2 ^ 64 ∧
      (reads ≤ target → c + target ≤ floored (c % 2 ^ 64) (shifted d move) + reads ∧
        floored (c % 2 ^ 64) (shifted d move) + reads ≤ c + target + minDelta) ∧
      (target < reads → floored (c % 2 ^ 64) (shifted d move) = c + minDelta) := by
  have hfloor : ∀ x, floored (c % 2 ^ 64) x = max x (c + minDelta) := by
    intro x
    rw [floored, Nat.mod_eq_of_lt (show c < 2 ^ 64 by omega), Nat.mod_eq_of_lt h1]
    split_ifs <;> omega
  have hshift : shifted d move = min u64Max ((d : Int) + move).toNat := by
    unfold shifted u64Max
    dsimp only
    split_ifs <;> omega
  rw [hfloor, hshift, u64Max]
  rcases le_or_gt wall target with hw | hw
  · obtain ⟨h3, h4⟩ := ahead hw
    omega
  · obtain ⟨h3, h4⟩ := hover hw
    omega

theorem asInt64_eq {x : Nat} {m : Int} (hx : x < 2 ^ 64) (h1 : -2 ^ 63 ≤ m) (h2 : m < 2 ^ 63) (hm : (m - x) % 2 ^ 64 = 0) :
    asInt64 x = m := by
  unfold asInt64
  split_ifs <;> omega

/-! ### Every act keeps the deadlines exact -/

theorem Exact.same {x : Thread} (h : Exact s t) (hx : s'.thread t = x) (hd : x.deadline = (s.thread t).deadline)
    (ht : x.target = (s.thread t).target) (ha : x.armedAt = (s.thread t).armedAt) (ho : s'.offset = s.offset)
    (hs : s'.lastSet = s.lastSet) (hc : s.clock ≤ s'.clock) : Exact s' t := by
  have hk : s'.keyedAt t = s.keyedAt t := by rw [keyedAt, keyedAt, hx, ha, hs]
  have hw : ∀ i, s'.wallAt i = s.wallAt i := fun i => by rw [wallAt, wallAt, ho]
  refine ⟨?_, ?_, hk ▸ h.keyed_le.trans hc, ?_, ?_⟩
  · rw [hx, hd]
    exact h.deadline_lt
  · rw [hx, ht]
    exact h.target_lt
  · rw [hk, hw, hx, hd, ht]
    exact h.ahead
  · rw [hk, hw, hx, hd, ht]
    exact h.over_

theorem Keyed.leaves (h : Keyed s) (hl : Leaves s s') : Keyed s' := by
  refine ⟨hl.offset ▸ h.offset_lt, ?_, fun t ht hw => ?_⟩
  · rw [hl.lastSet, hl.clock]
    exact h.set_le
  · obtain ⟨h1, h2, h3, h4, h5⟩ := hl.thread t ht
    exact (h.exact t h1 (h3 ▸ hw)).same rfl h2 h4 h5 hl.offset hl.lastSet hl.clock.ge

theorem sleepqInsert_thread (s : State) (t u : Nat) (wall : Bool) : (s.sleepqInsert t wall).thread u = if u = t then
      { s.thread t with onTimer := true, timerWall := wall, arrived := s.arrivals, shifted := false }
    else s.thread u := by
  unfold sleepqInsert sleepqInsertFrom
  dsimp only
  rw [Function.update_self, Function.update_idem, Function.update_apply]

theorem armAt_thread (s : State) (t u deadline : Nat) (wall : Bool) :
    (s.ktimeDeadlineArmAt t deadline wall).thread u = if u = t then
      { s.thread t with deadline := deadline, onTimer := true, timerWall := wall, arrived := s.arrivals, shifted := false }
    else s.thread u := by
  unfold ktimeDeadlineArmAt
  rw [sleepqInsert_thread, setThread_apply, if_pos rfl, setThread_apply]
  split_ifs <;> rfl

theorem Keyed.arrive {x : Thread} (h : Keyed s) (ht : ∀ u, s'.thread u = if u = t then x else s.thread u)
    (ho : s'.offset = s.offset) (hs : s'.lastSet = s.lastSet) (hc : s'.clock = s.clock)
    (hx : x.timerWall = true → Exact s' t) : Keyed s' := by
  refine ⟨ho ▸ h.offset_lt, ?_, fun u hon hw => ?_⟩
  · rw [hs, hc]
    exact h.set_le
  · have hu := ht u
    split_ifs at hu with he
    · subst he
      rw [hu] at hw
      exact hx hw
    · rw [hu] at hon hw
      exact (h.exact u hon hw).same hu rfl rfl rfl ho hs hc.ge

theorem realtimeDeadlineArm_thread {w : Nat} (hf : s.ArmFits w) (t u : Nat) :
    (s.realtimeDeadlineArm t w).thread u = if u = t then
      { s.thread t with
        deadline := s.clock + max (w - s.wallAt s.clock) minDelta, onTimer := true, timerWall := true, arrived := s.arrivals
        shifted := false, target := w, armedAt := s.clock }
    else s.thread u := by
  obtain ⟨h1, h2⟩ := hf
  have hwall : (s.now + s.offset) % 2 ^ 64 = s.wallAt s.clock := by
    rw [now, wallAt]
    omega
  unfold realtimeDeadlineArm
  dsimp only
  rw [armAt_thread, hwall, setThread_apply, if_pos rfl, setThread_apply]
  have hd := armed_deadline h1 h2
  rw [← now] at hd
  rw [hd]
  split_ifs <;> rfl

theorem Keyed.park (h : Keyed s) (c : Nat) (limit : WaitLimit) (hf : limit.onWall = true → s.ArmFits limit.unixNs)
    (hoff : (s.thread c).onTimer = false) :
    Keyed ((s.setThread c fun x => { x with state := .blocked }).ktimeLimitArm c limit) := by
  have h1 : Keyed (s.setThread c fun x => { x with state := .blocked }) := by
    refine h.leaves (leaves_unqueue s.links ?_)
    exact hoff
  have hlt : limit.unixNs < 2 ^ 64 := by
    unfold WaitLimit.unixNs
    have h2 := (limit.hi &&& ~~~0x80000000#32).isLt
    have h3 := limit.lo.isLt
    omega
  have hfit : limit.onWall = true → (s.setThread c fun x => { x with state := .blocked }).ArmFits limit.unixNs := hf
  generalize (s.setThread c fun x => { x with state := .blocked }) = v at h1 hfit
  unfold ktimeLimitArm
  split_ifs with hw
  · have hset := h1.set_le
    have hfit' := hfit hw
    have hthread := realtimeDeadlineArm_thread hfit' c
    refine h1.arrive hthread rfl rfl rfl fun _ => ?_
    have hself := hthread c
    rw [if_pos rfl] at hself
    have hkey : (v.realtimeDeadlineArm c limit.unixNs).keyedAt c = v.clock := by
      rw [keyedAt, hself]
      exact max_eq_left hset
    have hwall : (v.realtimeDeadlineArm c limit.unixNs).wallAt v.clock = v.wallAt v.clock := rfl
    obtain ⟨h2, h3⟩ := hfit'
    refine ⟨?_, ?_, hkey.le, ?_, ?_⟩
    · rw [hself]
      dsimp only
      omega
    · rw [hself]
      exact hlt
    · rw [hkey, hwall, hself]
      dsimp only
      omega
    · rw [hkey, hwall, hself]
      dsimp only
      omega
  · unfold ktimeDeadlineArm
    split_ifs
    · exact h1
    · exact h1.arrive (fun u => armAt_thread _ c u _ false) rfl rfl rfl fun hx => by cases hx

theorem Keyed.moved {v : State} {links' : Heap Root Nat} {newest : Nat} {move : Int} (h : Keyed s) (hq : Queue s l)
    (hn : newest < 2 ^ 64) (hmove : move = asInt64 ((s.offset + 2 ^ 64 - newest) % 2 ^ 64))
    (hfits : ∀ t, (s.thread t).onTimer = true → (s.thread t).timerWall = true →
      s.WaitFits s.clock ((s.clock + newest) % 2 ^ 64) t)
    (hquiet : Quiet { s with thread := moveWall s.thread s.now move l, links := links' } v) :
    Keyed { v with offset := newest, lastSet := s.clock } := by
  have ho := h.offset_lt
  refine ⟨hn, hquiet.clock.ge, fun t hon hw => ?_⟩
  obtain ⟨st, ev, hthread, -⟩ := hquiet.thread t
  dsimp only at hthread hon hw
  rcases moveWall_cases s.thread s.now move l t with ⟨htl, hwall, hmv⟩ | ⟨hnone, hmv⟩
  · -- the wait was moved: where it fits, what its floor added stays inside the timer's minimum
    have hex := h.exact t ((hq.mem t).1 htl) hwall
    obtain ⟨f1, f2, f3, f4, f5⟩ := hfits t ((hq.mem t).1 htl) hwall
    have hkc := hex.keyed_le
    have hwallAt : s.wallAt (s.keyedAt t) = (s.keyedAt t + s.offset) % 2 ^ 64 := rfl
    have hmeq : move = (s.wallAt (s.keyedAt t) + (s.clock - s.keyedAt t) : Nat) - ((s.clock + newest) % 2 ^ 64 : Nat) := by
      rw [hmove]
      refine asInt64_eq (by omega) (by omega) (by omega) ?_
      rw [hwallAt]
      omega
    obtain ⟨d1, d2, d3⟩ := shifted_deadline hkc hex.deadline_lt hmeq hex.ahead (fun ho => ⟨hex.over_ ho, f5 ho⟩) f1 f2
    rw [hmv] at hthread
    have hkey : (({ v with offset := newest, lastSet := s.clock } : State)).keyedAt t = s.clock := by
      show max (v.thread t).armedAt s.clock = s.clock
      rw [hthread]
      dsimp only
      rw [Thread.move_armedAt]
      exact max_eq_right ((le_max_left _ _).trans hkc)
    have hread : (({ v with offset := newest, lastSet := s.clock } : State)).wallAt s.clock = (s.clock + newest) % 2 ^ 64 := rfl
    have hdead : (v.thread t).deadline = floored (s.clock % 2 ^ 64) (Time.shifted (s.thread t).deadline move) := by
      rw [hthread]
      dsimp only
      rw [Thread.move_deadline, now]
    have htarget : (v.thread t).target = (s.thread t).target := by
      rw [hthread]
      dsimp only
      rw [Thread.move_target]
    refine ⟨?_, ?_, ?_, ?_, ?_⟩
    · show (v.thread t).deadline < _
      rw [hdead]
      exact d1
    · show (v.thread t).target < _
      rw [htarget]
      exact hex.target_lt
    · rw [hkey]
      exact hquiet.clock.ge
    · rw [hkey, hread]
      show _ ≤ (v.thread t).target → _ + (v.thread t).target ≤ (v.thread t).deadline + _ ∧
        (v.thread t).deadline + _ ≤ _ + (v.thread t).target + _
      rw [hdead, htarget]
      exact d2
    · rw [hkey, hread]
      show (v.thread t).target < _ → (v.thread t).deadline = _
      rw [hdead, htarget]
      exact d3
  · -- a queued wall wait is always moved
    rw [hmv] at hthread
    rw [hthread] at hon hw
    rw [hnone ((hq.mem t).2 hon)] at hw
    cases hw

theorem Keyed.wallKeyed {newest : Nat} (h : Keyed s) (hq : Queue s l) (hn : newest < 2 ^ 64) (hf : s.SetFits s.clock newest)
    (core : Nat) (tick : Option Nat) : Keyed (s.wallKeyed core newest tick) := by
  have ho := h.offset_lt
  rcases eq_or_ne newest s.offset with rfl | hne
  · have hzero : asInt64 ((s.offset + 2 ^ 64 - s.offset) % 2 ^ 64) = 0 := by
      rw [Nat.add_sub_cancel_left, Nat.mod_self, asInt64, if_pos (by omega)]
      rfl
    have hsame : s.wallKeyed core s.offset tick = s := by
      unfold State.wallKeyed ktimeWallShift
      rw [if_pos hzero, if_pos rfl]
    rwa [hsame]
  · have hm : asInt64 ((s.offset + 2 ^ 64 - newest) % 2 ^ 64) ≠ 0 := by
      unfold asInt64
      split_ifs <;> omega
    obtain ⟨links', l', -, hquiet⟩ := hq.wallShift hm core tick
    unfold State.wallKeyed
    rw [if_neg hne]
    exact h.moved hq hn rfl (hf.resolve_left hne) hquiet

theorem Keyed.exec (h : Keyed s) (hq : Queue s l) (ha : s.Enabled a) (hf : s.Fits a) : Keyed (s.exec a) := by
  have hoff : ∀ c, (s.thread c).state ≠ .blocked → (s.thread c).onTimer = false := fun c hc => hq.off hc
  cases a with
  | pass n =>
    refine ⟨h.offset_lt, h.set_le.trans (Nat.le_add_right ..), fun t hon hw => ?_⟩
    exact (h.exact t hon hw).same rfl rfl rfl rfl rfl rfl (Nat.le_add_right ..)
  | sleepUntil core c deadline =>
    obtain ⟨-, -, hrun⟩ := ha
    have hc := hoff c (by rw [hrun]; decide)
    have h1 : Keyed (s.setThread c fun x => { x with deadline := floored s.now deadline }) := by
      refine h.leaves (leaves_unqueue s.links ?_)
      exact hc
    have h2 : Keyed ((s.setThread c fun x => { x with deadline := floored s.now deadline }).setThread c fun x =>
        { x with state := .blocked }) := by
      refine h1.leaves (leaves_unqueue s.links ?_)
      rw [setThread_apply, if_pos rfl]
      exact hc
    exact h2.arrive (fun u => sleepqInsert_thread _ c u false) rfl rfl rfl fun hx => by cases hx
  | park core c limit => exact h.park c limit hf (hoff c (by rw [ha.2.2]; decide))
  | wake t => exact h.leaves (hq.wake t).2
  | seat core p => exact h.leaves (switchBook_quiet ha).leaves
  | slice t event => exact h.leaves (timedEvent_quiet s t event).leaves
  | exit core c =>
    refine h.leaves (leaves_unqueue s.links ?_)
    exact hoff c (by rw [ha.2.2]; decide)
  | create t => exact h.leaves (leaves_unqueue _ rfl)
  | set core unixNs late tick =>
    refine Keyed.wallKeyed (s := { s with clock := s.clock + late }) (l := l) ⟨h.offset_lt, ?_, fun t hon hw => ?_⟩
      { hq with } (Nat.mod_lt _ (by decide)) hf core tick
    · exact h.set_le.trans (Nat.le_add_right ..)
    · exact (h.exact t hon hw).same rfl rfl rfl rfl rfl rfl (Nat.le_add_right ..)
  | rekey core newest tick => exact h.wallKeyed hq ha hf core tick
  | timer core i => exact h.leaves (hq.onTimer core i).2.2.1
  | retune core tick => exact h.leaves ((ktimeDisarm_quiet s core).trans (ktimeRearm_quiet _ core _ tick)).leaves

end State

theorem FitRun.reachable {s : State} (h : FitRun s) : Reachable s := by
  induction h with
  | boot count clock comparator => exact .boot count clock comparator
  | step _ a ha _ ih => exact ih.step a ha

theorem FitRun.keyed {s : State} (h : FitRun s) : Keyed s := by
  induction h with
  | boot count clock comparator => exact ⟨Nat.two_pow_pos 64, le_rfl, fun t ht => by cases ht⟩
  | step hr a ha hf ih =>
    obtain ⟨l, hl⟩ := hr.reachable.queue.1
    exact ih.exec hl ha hf

/-- In every run whose arms and sets fit, a thread queued for a wall time is due when the wall clock reaches it. -/
theorem wall_deadline_follows {s : State} (h : FitRun s) (t : Nat) (hon : (s.thread t).onTimer = true)
    (hw : (s.thread t).timerWall = true) : Follows s t :=
  (h.keyed.exact t hon hw).follows

/-- Thread 0 waits on core 0 until the wall clock reads a millisecond. -/
def waitsWall : State :=
  ((((boot 2 0 fun _ => 0).exec (.create 0)).exec (.create 1)).exec (.seat 0 { next := 0, timedEvent := u64Max })).exec
    (.park 0 0 ⟨1000000#32, 0x80000000#32⟩)

/-- Thread 1 sets the wall clock to two milliseconds and back to 0 before the timer fires. -/
def setAndBack : State :=
  ((waitsWall.exec (.seat 0 { next := 1, timedEvent := u64Max })).exec (.set 0 2000000 0 none)).exec (.set 0 0 0 none)

theorem waitsWall_fitRun : FitRun waitsWall :=
  ((((FitRun.boot 2 0 fun _ => 0).step (.create 0) (.inl rfl) trivial).step (.create 1) (.inl rfl) trivial).step
    (.seat 0 { next := 0, timedEvent := u64Max }) rfl trivial).step (.park 0 0 ⟨1000000#32, 0x80000000#32⟩)
      ⟨by decide, rfl, rfl⟩ fun _ => ⟨by decide, by decide⟩

/-- Thread 1 sets the wall clock forward, short of the time thread 0 waits for. -/
def setForward : State := (waitsWall.exec (.seat 0 { next := 1, timedEvent := u64Max })).exec (.set 0 400000 0 none)

theorem setForward_fitRun : FitRun setForward := by
  have hfits : (waitsWall.exec (.seat 0 { next := 1, timedEvent := u64Max })).SetFits 0 400000 := by
    refine .inr fun t hon _ => ?_
    rcases t with _ | _ | t
    · exact ⟨by decide, by decide, by decide, by decide, by decide⟩
    · exact absurd hon (by decide)
    · cases hon
  exact (waitsWall_fitRun.step (.seat 0 { next := 1, timedEvent := u64Max }) rfl trivial).step (.set 0 400000 0 none)
    (by decide : 400000 < 2 ^ 64) hfits

theorem wall_deadline_follows_setForward : (setForward.thread 0).onTimer = true ∧ (setForward.thread 0).timerWall = true ∧
    (setForward.thread 0).deadline = 600000 ∧ Follows setForward 0 :=
  ⟨by decide, by decide, by decide, wall_deadline_follows setForward_fitRun 0 (by decide) (by decide)⟩

/-- The floor of the first set stays in the deadline: the thread is due a millisecond after the wall clock reads its time. -/
theorem wall_deadline_late : Reachable setAndBack ∧ (setAndBack.thread 0).onTimer = true ∧
    (setAndBack.thread 0).timerWall = true ∧ ¬ Follows setAndBack 0 := by
  have hr : Reachable setAndBack :=
    ((waitsWall_fitRun.reachable.step (.seat 0 { next := 1, timedEvent := u64Max }) rfl).step (.set 0 2000000 0 none)
      (show 2000000 < 2 ^ 64 by omega)).step (.set 0 0 0 none) (Nat.two_pow_pos 64)
  refine ⟨hr, by decide, by decide, ?_⟩
  rintro ⟨instant, ⟨-, hleast⟩, -, hle⟩
  have hkey : setAndBack.keyedAt 0 = 0 := by decide
  have hdead : (setAndBack.thread 0).deadline = 2020000 := by decide
  have hmem : 1000000 ∈ { i | setAndBack.keyedAt 0 ≤ i ∧ (setAndBack.thread 0).target ≤ setAndBack.wallAt i } :=
    ⟨by rw [hkey]; omega, by decide⟩
  have hinstant := hleast hmem
  rw [hkey, hdead, minDelta] at hle
  omega

end Time
end KickOS
