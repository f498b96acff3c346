import KickOS.Time.Shift

/-! The queue of deadlines over every run, and what a timer interrupt wakes. -/

namespace KickOS
namespace Time
open Function (update update_of_ne update_self)

open Lib.Linked

namespace State

variable {s s' u : State} {core now n t : Nat} {l : List Nat} {p : Pass}

/-! ### Threads off the queue -/

theorem Queue.setOff {x : Thread} (h : Queue s l) (ht : (s.thread t).onTimer = false) (hx : x.onTimer = false) :
    Queue { s with thread := update s.thread t x } l := by
  have hne : ∀ u ∈ l, u ≠ t := by
    rintro u hu rfl
    rw [(h.mem u).1 hu] at ht
    cases ht
  refine ⟨h.lists, h.moved, Before.congr h.sorted fun u hu => ?_, fun u => ?_, fun u hu => ?_, h.small, fun u hu => ?_⟩
  all_goals dsimp only
  · rw [update_of_ne (hne u hu)]
    exact ⟨rfl, rfl, rfl⟩
  · rw [h.mem]
    rcases eq_or_ne u t with rfl | hu
    · rw [update_self, ht, hx]
    · rw [update_of_ne hu]
  · rw [update_of_ne (hne u hu)]
    exact h.blocked u hu
  · rw [update_of_ne (hne u hu)]
    exact h.arrived u hu

theorem Queue.off (h : Queue s l) (hb : (s.thread t).state ≠ .blocked) : (s.thread t).onTimer = false := by
  rw [Bool.eq_false_iff]
  intro hon
  exact hb (h.blocked t ((h.mem t).2 hon))

theorem Queue.armAt (h : Queue s l) (ht : (s.thread t).onTimer = false) (hb : (s.thread t).state = .blocked) (hc : t < s.count)
    (deadline : Nat) (wall : Bool) : ∃ l', Queue (s.ktimeDeadlineArmAt t deadline wall) l' := by
  have hoff : Queue (s.setThread t fun x => { x with deadline := deadline }) l := h.setOff ht ht
  refine hoff.sleepqInsert ?_ ?_ hc wall
  · rw [setThread_apply, if_pos rfl]
    exact ht
  · rw [setThread_apply, if_pos rfl]
    exact hb

theorem Queue.limitArm (h : Queue s l) (ht : (s.thread t).onTimer = false) (hb : (s.thread t).state = .blocked) (hc : t < s.count)
    (limit : WaitLimit) : ∃ l', Queue (s.ktimeLimitArm t limit) l' := by
  unfold ktimeLimitArm
  split_ifs
  · refine Queue.armAt (s := s.setThread t fun x => { x with target := limit.unixNs, armedAt := s.clock })
      (h.setOff ht ht) ?_ ?_ hc _ true
    · rw [setThread_apply, if_pos rfl]
      exact ht
    · rw [setThread_apply, if_pos rfl]
      exact hb
  · unfold ktimeDeadlineArm
    split_ifs
    · exact ⟨l, h⟩
    · exact h.armAt ht hb hc _ false

/-! ### Wakes -/

theorem Queue.wake (h : Queue s l) (t : Nat) : Queue (s.wakeNoResched t).1 (l.erase t) ∧ Leaves s (s.wakeNoResched t).1 := by
  have hready : ∀ v : State, Queue v (l.erase t) → (v.thread t).onTimer = false →
      Queue (v.setThread t fun x => { x with state := .ready }) (l.erase t) ∧
        Leaves v (v.setThread t fun x => { x with state := .ready }) := by
    intro v hv hoff
    exact ⟨hv.setOff hoff hoff, leaves_unqueue v.links hoff⟩
  have hcancel : ∃ v : State, (if (s.thread t).onTimer then s.ktimeDeadlineCancel t else s) = v ∧ Queue v (l.erase t) ∧
      (v.thread t).onTimer = false ∧ Leaves s v := by
    rcases Bool.eq_false_or_eq_true (s.thread t).onTimer with hon | hoff
    · obtain ⟨links', heq, hq⟩ := h.sleepqRemove ((h.mem t).2 hon)
      refine ⟨s.sleepqRemove t, ?_, hq, ?_, ?_⟩
      · rw [if_pos hon, ktimeDeadlineCancel, if_neg (by rw [hon]; decide)]
      · rw [heq]
        dsimp only
        rw [update_self]
      · rw [heq]
        exact leaves_unqueue _ rfl
    · refine ⟨s, if_neg (by rw [hoff]; decide), ?_, hoff, .refl s⟩
      rwa [List.erase_of_not_mem fun hm => by rw [(h.mem t).1 hm] at hoff; cases hoff]
  obtain ⟨v, hv, h1, h2, h3⟩ := hcancel
  unfold wakeNoResched
  dsimp only
  rw [hv]
  split_ifs
  · exact ⟨(hready v h1 h2).1, h3.trans (hready v h1 h2).2⟩
  · exact ⟨h1, h3⟩

theorem Queue.wakeHead (h : Queue s (t :: l)) : ∃ v, (s.sleepqRemove t).wakeNoResched t = (v, true) ∧ Queue v l ∧ Leaves s v ∧
    (∀ u, (v.thread u).deadline = (s.thread u).deadline) ∧
    ∀ u, (v.thread u).state = .blocked ↔ (s.thread u).state = .blocked ∧ u ≠ t := by
  have ht : t ∈ t :: l := List.mem_cons_self ..
  obtain ⟨links', heq, hq⟩ := h.sleepqRemove ht
  rw [List.erase_cons_head] at hq
  have hthread : (s.sleepqRemove t).thread t = { s.thread t with onTimer := false, timerWall := false } := by
    rw [heq]
    exact update_self ..
  refine ⟨(s.sleepqRemove t).setThread t fun x => { x with state := .ready }, ?_, ?_, ?_, fun u => ?_, fun u => ?_⟩
  · unfold wakeNoResched
    have hoff : ¬ ((s.sleepqRemove t).thread t).onTimer = true := by
      rw [hthread]
      exact Bool.false_ne_true
    have hblocked : ((s.sleepqRemove t).thread t).state = .blocked := by
      rw [hthread]
      exact h.blocked t ht
    dsimp only
    rw [if_neg hoff, if_pos hblocked]
  · exact hq.setOff (by rw [hthread]) (by rw [hthread])
  · refine Leaves.trans ?_ (leaves_unqueue (s := s.sleepqRemove t) (s.sleepqRemove t).links (by rw [hthread]))
    rw [heq]
    exact leaves_unqueue _ rfl
  · rw [setThread_apply]
    split_ifs with hu
    · rw [hu, hthread]
    · rw [heq]
      dsimp only
      rw [update_of_ne hu]
  · rw [setThread_apply]
    split_ifs with hu
    · exact iff_of_false (by decide) fun hc => hc.2 hu
    · rw [heq]
      dsimp only
      rw [update_of_ne hu]
      exact ⟨fun hb => ⟨hb, hu⟩, fun hb => hb.1⟩

theorem Quiet.deadline (h : Quiet s s') (t : Nat) : (s'.thread t).deadline = (s.thread t).deadline := by
  obtain ⟨st, ev, h1, -⟩ := h.thread t
  rw [h1]

theorem Quiet.blocked (h : Quiet s s') (t : Nat) : (s'.thread t).state = .blocked ↔ (s.thread t).state = .blocked := by
  obtain ⟨st, ev, h1, h2⟩ := h.thread t
  rw [h1]
  exact h2

theorem Queue.expire (h : Queue s l) (core now : Nat) (hn : l.length ≤ n) (pick : Nat → Option Pass) : ∃ s',
    expire core now pick n s = (s', l.takeWhile fun t => (s.thread t).deadline ≤ now) ∧
      Queue s' (l.dropWhile fun t => (s.thread t).deadline ≤ now) ∧ Leaves s s' ∧
      ∀ t, (s'.thread t).state = .blocked ↔
        (s.thread t).state = .blocked ∧ t ∉ l.takeWhile fun t => (s.thread t).deadline ≤ now := by
  induction l generalizing s n with
  | nil =>
    have hroot : s.links.root .sleepq = none := h.lists
    refine ⟨s, ?_, h, .refl s, fun t => ⟨fun hb => ⟨hb, List.not_mem_nil⟩, fun hb => hb.1⟩⟩
    cases n with
    | zero => rfl
    | succ n => simp only [State.expire, hroot, List.takeWhile_nil]
  | cons t l ih =>
    obtain ⟨n, rfl⟩ : ∃ j, n = j + 1 := Nat.exists_eq_succ_of_ne_zero (by rw [List.length_cons] at hn; omega)
    have hroot : s.links.root .sleepq = some t := h.lists.1
    rw [State.expire, hroot]
    dsimp only
    by_cases hdue : (s.thread t).deadline ≤ now
    · obtain ⟨v, h1, h2, h3, h4, h5⟩ := h.wakeHead
      have hq := pickAndSeat_quiet v core (pick t)
      have hdl : ∀ u, ((v.pickAndSeat core (pick t)).thread u).deadline = (s.thread u).deadline :=
        fun u => (hq.deadline u).trans (h4 u)
      obtain ⟨s', g1, g2, g3, g4⟩ := ih (h2.quiet hq) (n := n) (by rw [List.length_cons] at hn; omega)
      simp only [hdl] at g1 g2 g4
      rw [if_pos hdue, h1]
      dsimp only
      rw [if_pos rfl, g1, List.takeWhile_cons_of_pos (by exact decide_eq_true hdue),
        List.dropWhile_cons_of_pos (by exact decide_eq_true hdue)]
      refine ⟨s', rfl, g2, h3.trans (hq.leaves.trans g3), fun u => ?_⟩
      rw [g4, hq.blocked, h5, List.mem_cons, not_or, and_assoc]
    · have hnot : ¬ decide ((s.thread t).deadline ≤ now) = true := fun hd => hdue (of_decide_eq_true hd)
      rw [if_neg hdue, List.takeWhile_cons_of_neg (by exact hnot), List.dropWhile_cons_of_neg (by exact hnot)]
      exact ⟨s, rfl, h, .refl s, fun t => ⟨fun hb => ⟨hb, List.not_mem_nil⟩, fun hb => hb.1⟩⟩

theorem Queue.onTimer (h : Queue s l) (core : Nat) (i : Interrupt) :
    (s.ktimeOnTimer core i).2 = l.takeWhile (fun t => (s.thread t).deadline ≤ s.now) ∧
      Queue (s.ktimeOnTimer core i).1 (l.dropWhile fun t => (s.thread t).deadline ≤ s.now) ∧ Leaves s (s.ktimeOnTimer core i).1 ∧
      ∀ t, ((s.ktimeOnTimer core i).1.thread t).state = .blocked ↔
        (s.thread t).state = .blocked ∧ t ∉ l.takeWhile fun t => (s.thread t).deadline ≤ s.now := by
  have hq := (ktimeDisarm_quiet s core).trans (tickRr_quiet _ core s.now i)
  obtain ⟨s', h1, h2, h3, h4⟩ := (h.quiet hq).expire core s.now (n := s.count) h.length_le i.pick
  simp only [hq.deadline] at h1 h2 h4
  have hr := ktimeRearm_quiet s' core (s'.current core) i.tick
  unfold ktimeOnTimer
  rw [h1]
  refine ⟨rfl, h2.quiet hr, hq.leaves.trans (h3.trans hr.leaves), fun t => ?_⟩
  rw [hr.blocked, h4, hq.blocked]

/-! ### The timer of a core -/

/-- What the kernel recorded for a comparator is what it holds, once the core has programmed it. -/
def Programmed (s : State) : Prop := ∀ core, s.armed core = 0 ∨ s.comparator core = s.armed core

theorem Programmed.same (h : Programmed s) (ha : s'.armed = s.armed) (hc : s'.comparator = s.comparator) : Programmed s' := by
  intro core
  rw [ha, hc]
  exact h core

theorem Programmed.put (h : Programmed s) (core next : Nat) : Programmed { s with
    armed := update s.armed core next, comparator := update s.comparator core next } := by
  intro c
  dsimp only
  rcases eq_or_ne c core with rfl | hc
  · rw [update_self, update_self]
    exact .inr rfl
  · rw [update_of_ne hc, update_of_ne hc]
    exact h c

theorem Programmed.ktimeRearm (h : Programmed s) (core : Nat) (incoming tick : Option Nat) :
    Programmed (s.ktimeRearm core incoming tick) := by
  unfold State.ktimeRearm
  dsimp only
  split_ifs
  all_goals first
    | exact h
    | exact h.put core _

theorem Programmed.displace (h : Programmed s) (core : Nat) : Programmed (s.displace core) := by
  unfold State.displace
  cases s.current core with
  | none => exact h
  | some prev =>
    dsimp only
    split_ifs
    · exact h.same rfl rfl
    · exact h

theorem Programmed.switchBook (h : Programmed s) (core : Nat) (p : Pass) : Programmed (s.switchBook core p) := by
  refine Programmed.ktimeRearm ?_ core (some p.next) p.tick
  exact (h.displace core).same rfl rfl

theorem Programmed.pickAndSeat (h : Programmed s) (core : Nat) (pick : Option Pass) : Programmed (s.pickAndSeat core pick) := by
  unfold State.pickAndSeat
  cases pick with
  | none => exact h
  | some p =>
    dsimp only
    split_ifs
    · exact h.switchBook core p
    · exact h

theorem Programmed.tickRr (h : Programmed s) (core now : Nat) (i : Interrupt) : Programmed (s.tickRr core now i) := by
  unfold State.tickRr
  cases s.current core with
  | none => exact h
  | some c =>
    dsimp only
    split_ifs
    · exact h
    · refine Programmed.pickAndSeat ?_ core i.rotate
      exact h.same rfl rfl

theorem Programmed.sleepqRemove (h : Programmed s) (t : Nat) : Programmed (s.sleepqRemove t) := by
  unfold State.sleepqRemove
  dsimp only
  split_ifs
  · exact h.same rfl rfl
  · exact h

theorem Programmed.wake (h : Programmed s) (t : Nat) : Programmed (s.wakeNoResched t).1 := by
  have hcancel : Programmed (if (s.thread t).onTimer then s.ktimeDeadlineCancel t else s) := by
    unfold State.ktimeDeadlineCancel
    split_ifs
    · exact h
    · exact h.sleepqRemove t
    · exact h
  unfold State.wakeNoResched
  dsimp only
  generalize (if (s.thread t).onTimer then s.ktimeDeadlineCancel t else s) = v at hcancel ⊢
  split_ifs
  · exact hcancel.same rfl rfl
  · exact hcancel

theorem Programmed.expire (h : Programmed s) (core now : Nat) (pick : Nat → Option Pass) (n : Nat) :
    Programmed (State.expire core now pick n s).1 := by
  induction n generalizing s with
  | zero => exact h
  | succ n ih =>
    unfold State.expire
    cases s.links.root .sleepq with
    | none => exact h
    | some t =>
      dsimp only
      have hw := (h.sleepqRemove t).wake t
      split_ifs
      · exact ih (hw.pickAndSeat core (pick t))
      · exact ih hw
      · exact h

theorem Programmed.onTimer (h : Programmed s) (core : Nat) (i : Interrupt) : Programmed (s.ktimeOnTimer core i).1 :=
  ((((h.put core u64Max).tickRr core s.now i).expire core s.now i.pick s.count).ktimeRearm core _ i.tick)

theorem Programmed.pullWall (h : Programmed s) (now n : Nat) (move : Int) (tail pp : Link Root Nat) :
    Programmed (State.pullWall now move n s tail pp) := by
  induction n generalizing s tail pp with
  | zero => exact h
  | succ n ih =>
    unfold State.pullWall
    cases s.links.get pp with
    | none => exact h
    | some t =>
      dsimp only
      split_ifs
      · exact ih h tail (.next t)
      · refine ih ?_ (.next t) pp
        exact h.same rfl rfl

theorem Programmed.mergeWall (h : Programmed s) (n : Nat) (pp : Link Root Nat) : Programmed (State.mergeWall n s pp) := by
  induction n generalizing s pp with
  | zero => exact h
  | succ n ih =>
    unfold State.mergeWall
    cases s.links.root .moved with
    | none => exact h
    | some t =>
      refine ih ?_ _
      exact h.same rfl rfl

theorem Programmed.wallShift (h : Programmed s) (core : Nat) (move : Int) (tick : Option Nat) :
    Programmed (s.ktimeWallShift core move tick) := by
  have hp := h.pullWall s.now s.count move (.root .moved) (.root .sleepq)
  unfold ktimeWallShift
  dsimp only
  generalize State.pullWall s.now move s.count s (.root .moved) (.root .sleepq) = v at hp ⊢
  split_ifs
  · exact h
  · exact hp
  · exact (hp.mergeWall s.count (.root .sleepq)).ktimeRearm core (s.current core) tick

theorem Programmed.rekeyed (h : Programmed s) (offset lastSet : Nat) :
    Programmed { s with offset := offset, lastSet := lastSet } := h.same rfl rfl

theorem Programmed.wallKeyed (h : Programmed s) (core newest : Nat) (tick : Option Nat) :
    Programmed (s.wallKeyed core newest tick) := by
  have hw := h.wallShift core (asInt64 ((s.offset + 2 ^ 64 - newest) % 2 ^ 64)) tick
  exact hw.rekeyed newest (if newest = s.offset then s.lastSet else s.clock)

/-- The core's timer is armed no later than the head of the queue. -/
def Armed (s : State) (core : Nat) : Prop :=
  (∀ t, s.links.root .sleepq = some t → s.armed core ≤ (s.thread t).deadline) ∧
    (s.armed core = 0 ∨ s.comparator core = s.armed core)

theorem ktimeRearm_armed (h : Programmed s) (core : Nat) (incoming tick : Option Nat) :
    Armed (s.ktimeRearm core incoming tick) core := by
  refine ⟨fun t ht => ?_, h.ktimeRearm core incoming tick core⟩
  have hq := ktimeRearm_quiet s core incoming tick
  rw [hq.links] at ht
  rw [hq.deadline]
  have hhead : s.headDeadline = (s.thread t).deadline := by rw [headDeadline, ht]
  rw [← hhead]
  unfold ktimeRearm
  dsimp only
  split_ifs
  all_goals first
    | omega
    | simp only [update_self]; omega

/-! ### Every run -/

theorem Queue.rekeyed {s : State} {l : List Nat} (h : Queue s l) (offset lastSet : Nat) :
    Queue { s with offset := offset, lastSet := lastSet } l :=
  { h with }

theorem Queue.wallKeyed {s : State} {l : List Nat} (h : Queue s l) (core newest : Nat) (tick : Option Nat) :
    ∃ l', Queue (s.wallKeyed core newest tick) l' := by
  have hshift : ∃ l', Queue (s.ktimeWallShift core (asInt64 ((s.offset + 2 ^ 64 - newest) % 2 ^ 64)) tick) l' := by
    by_cases hm : asInt64 ((s.offset + 2 ^ 64 - newest) % 2 ^ 64) = 0
    · exact ⟨l, by rwa [ktimeWallShift, if_pos hm]⟩
    · obtain ⟨links', l', h1, h2⟩ := h.wallShift hm core tick
      exact ⟨l', h1.quiet h2⟩
  obtain ⟨l', hl'⟩ := hshift
  exact ⟨l', hl'.rekeyed newest (if newest = s.offset then s.lastSet else s.clock)⟩

theorem Queue.exec {s : State} {l : List Nat} {a : Act} (h : Queue s l) (ha : s.Enabled a) : ∃ l', Queue (s.exec a) l' := by
  have park : ∀ c, (s.thread c).state = .running → (s.thread c).onTimer = false := fun c hc => h.off (by rw [hc]; decide)
  cases a with
  | pass n => exact ⟨l, { h with }⟩
  | sleepUntil core c deadline =>
    obtain ⟨hc, -, hrun⟩ := ha
    have hoff := park c hrun
    have h1 : Queue (s.setThread c fun x => { x with deadline := floored s.now deadline }) l := h.setOff hoff hoff
    have h2 : Queue ((s.setThread c fun x => { x with deadline := floored s.now deadline }).setThread c fun x =>
        { x with state := .blocked }) l := by
      refine h1.setOff ?_ ?_
      all_goals rw [setThread_apply, if_pos rfl]
      all_goals exact hoff
    show ∃ l', Queue (s.ktimeSleepUntil c deadline) l'
    unfold ktimeSleepUntil
    refine h2.sleepqInsert ?_ ?_ hc false
    · rw [setThread_apply, if_pos rfl, setThread_apply, if_pos rfl]
      exact hoff
    · rw [setThread_apply, if_pos rfl]
  | park core c limit =>
    obtain ⟨hc, -, hrun⟩ := ha
    have hoff := park c hrun
    have h1 : Queue (s.setThread c fun x => { x with state := .blocked }) l := h.setOff hoff hoff
    show ∃ l', Queue (ktimeLimitArm _ c limit) l'
    refine h1.limitArm ?_ ?_ hc limit
    · rw [setThread_apply, if_pos rfl]
      exact hoff
    · rw [setThread_apply, if_pos rfl]
  | wake t => exact ⟨_, (h.wake t).1⟩
  | seat core p => exact ⟨l, h.quiet (switchBook_quiet ha)⟩
  | slice t event => exact ⟨l, h.quiet (timedEvent_quiet s t event)⟩
  | exit core c =>
    obtain ⟨-, -, hrun⟩ := ha
    have hq : Quiet s (s.setThread c fun x => { x with state := .exited }) :=
      setThread_quiet (by rw [hrun]; decide) ⟨.exited, _, rfl, by decide⟩
    exact ⟨l, h.quiet hq⟩
  | create t =>
    have hoff : (s.thread t).onTimer = false := h.off (by rcases ha with ht | ht <;> rw [ht] <;> decide)
    have h1 : Queue { s with thread := update s.thread t { state := .ready } } l := h.setOff hoff rfl
    have htl : t ∉ l := fun hm => by rw [(h.mem t).1 hm] at hoff; cases hoff
    exact ⟨l, ⟨h1.lists.stray htl, h1.moved, h1.sorted, h1.mem, h1.blocked, h1.small, h1.arrived⟩⟩
  | set core unixNs late tick =>
    show ∃ l', Queue (s.realtimeSet core unixNs late tick) l'
    unfold realtimeSet
    exact Queue.wallKeyed (s := { s with clock := s.clock + late })
      { h with } core _ tick
  | rekey core newest tick => exact h.wallKeyed core newest tick
  | timer core i =>
    show ∃ l', Queue (s.ktimeOnTimer core i).1 l'
    exact ⟨_, (h.onTimer core i).2.1⟩
  | retune core tick =>
    show ∃ l', Queue ((s.ktimeDisarm core).ktimeRearm core (s.current core) tick) l'
    exact ⟨l, h.quiet ((ktimeDisarm_quiet s core).trans (ktimeRearm_quiet _ core _ tick))⟩

theorem Programmed.exec {s : State} (h : Programmed s) (a : Act) : Programmed (s.exec a) := by
  cases a with
  | park core c limit =>
    show Programmed (ktimeLimitArm _ c limit)
    unfold ktimeLimitArm realtimeDeadlineArm ktimeDeadlineArm
    split_ifs <;> exact h.same rfl rfl
  | wake t => exact h.wake t
  | seat core p => exact h.switchBook core p
  | set core unixNs late tick =>
    refine Programmed.wallKeyed (s := { s with clock := s.clock + late }) ?_ core _ tick
    exact h.same rfl rfl
  | rekey core newest tick => exact h.wallKeyed core newest tick
  | timer core i => exact h.onTimer core i
  | retune core tick => exact (h.put core u64Max).ktimeRearm core (s.current core) tick
  | _ => exact h.same rfl rfl

end State

open State

theorem Reachable.queue {s : State} (h : Reachable s) : (∃ l, s.Queue l) ∧ s.Programmed := by
  induction h with
  | boot count clock comparator =>
    refine ⟨⟨[], rfl, rfl, .nil, fun t => ?_, ?_, ?_, ?_⟩, fun core => .inl rfl⟩
    · exact iff_of_false List.not_mem_nil Bool.false_ne_true
    all_goals exact fun t ht => by cases ht
  | step hr a ha ih =>
    obtain ⟨⟨l, hl⟩, hp⟩ := ih
    exact ⟨Queue.exec hl ha, Programmed.exec hp a⟩

/-- A timer interrupt wakes the queued threads whose deadline its reading has reached, each once, and nobody else. -/
structure WakesDue (s s' : State) (woken : List Nat) : Prop where
  once : woken.Nodup
  due : ∀ t, t ∈ woken ↔ (s.thread t).onTimer = true ∧ (s.thread t).deadline ≤ s.now
  ended : ∀ t ∈ woken, (s.thread t).state = .blocked ∧ (s'.thread t).state ≠ .blocked
  others : ∀ t, t ∉ woken → ((s'.thread t).state = .blocked ↔ (s.thread t).state = .blocked)
  left : ∀ t, (s'.thread t).onTimer = true ↔ (s.thread t).onTimer = true ∧ s.now < (s.thread t).deadline

/-- In every run the queue is one list in the order of the deadlines, and of the arrivals where no wall shift came between, of
exactly the threads marked `on_timer`; a timer interrupt wakes those that are due, and after it and after every switch the core
is armed for the head. -/
theorem sleep_queue {s : State} (h : Reachable s) :
    (∃ l, s.links.Lists .sleepq l ∧ l.Nodup ∧ l.Pairwise (Before s.thread) ∧ ∀ t, (s.thread t).onTimer = true ↔ t ∈ l) ∧
      (∀ core i, WakesDue s (s.ktimeOnTimer core i).1 (s.ktimeOnTimer core i).2 ∧ Armed (s.ktimeOnTimer core i).1 core) ∧
      ∀ core p, (s.thread p.next).state = .ready → Armed (s.switchBook core p) core := by
  obtain ⟨⟨l, hl⟩, hp⟩ := h.queue
  refine ⟨⟨l, hl.lists, hl.lists.nodup, hl.sorted, fun t => (hl.mem t).symm⟩, fun core i => ⟨?_, ?_⟩, fun core p _ => ?_⟩
  · obtain ⟨h1, h2, -, h4⟩ := hl.onTimer core i
    have hsorted : l.Pairwise fun a b => (s.thread a).deadline ≤ (s.thread b).deadline := hl.sorted.imp fun h => h.1
    have htake : ∀ t ∈ l.takeWhile (fun t => (s.thread t).deadline ≤ s.now), (s.thread t).deadline ≤ s.now := by
      intro t ht
      have hd := List.mem_takeWhile_imp ht
      exact of_decide_eq_true hd
    have hsplit : ∀ t, t ∈ l ↔ t ∈ l.takeWhile (fun t => (s.thread t).deadline ≤ s.now) ∨
        t ∈ l.dropWhile (fun t => (s.thread t).deadline ≤ s.now) := by
      intro t
      rw [← List.mem_append, List.takeWhile_append_dropWhile]
    rw [h1]
    refine ⟨hl.lists.nodup.sublist (List.takeWhile_sublist _), fun t => ?_, fun t ht => ⟨?_, fun hb => ?_⟩,
      fun t ht => ?_, fun t => ?_⟩
    · constructor
      · exact fun ht => ⟨(hl.mem t).1 ((hsplit t).2 (.inl ht)), htake t ht⟩
      · rintro ⟨hon, hdue⟩
        refine ((hsplit t).1 ((hl.mem t).2 hon)).resolve_right fun hd => ?_
        exact absurd (lt_of_mem_dropWhile hsorted hd) (not_lt.2 hdue)
    · exact hl.blocked t ((hsplit t).2 (.inl ht))
    · exact ((h4 t).1 hb).2 ht
    · rw [h4]
      exact ⟨fun hb => hb.1, fun hb => ⟨hb, ht⟩⟩
    · rw [← h2.mem]
      constructor
      · exact fun ht => ⟨(hl.mem t).1 ((hsplit t).2 (.inr ht)), lt_of_mem_dropWhile hsorted ht⟩
      · rintro ⟨hon, hlate⟩
        refine ((hsplit t).1 ((hl.mem t).2 hon)).resolve_left fun hd => ?_
        exact absurd (htake t hd) (not_le.2 hlate)
  · refine ktimeRearm_armed ?_ core _ i.tick
    exact ((hp.put core u64Max).tickRr core s.now i).expire core s.now i.pick s.count
  · refine ktimeRearm_armed ?_ core (some p.next) p.tick
    exact (hp.displace core).same rfl rfl

/-- On core 0 thread 0 sleeps for a millisecond, and behind it thread 1 for half of one, which is over as thread 2 runs. -/
def twoSleep : State :=
  ((((((((boot 3 0 fun _ => 7).exec (.create 0)).exec (.create 1)).exec (.create 2)).exec
    (.seat 0 { next := 0, timedEvent := u64Max })).exec (.sleepUntil 0 0 1000000)).exec
    (.seat 0 { next := 1, timedEvent := u64Max })).exec (.sleepUntil 0 1 500000)).exec (.pass 600000)

theorem twoSleep_reachable : Reachable twoSleep :=
  ((((((((Reachable.boot 3 0 fun _ => 7).step (.create 0) (.inl rfl)).step (.create 1) (.inl rfl)).step (.create 2)
    (.inl rfl)).step (.seat 0 { next := 0, timedEvent := u64Max }) rfl).step (.sleepUntil 0 0 1000000) ⟨by decide,
    rfl, rfl⟩).step (.seat 0 { next := 1, timedEvent := u64Max }) rfl).step (.sleepUntil 0 1 500000) ⟨by decide, rfl,
    rfl⟩).step (.pass 600000) trivial

theorem sleep_queue_twoSleep : ((twoSleep.thread 0).onTimer = true ∧ (twoSleep.thread 1).onTimer = true) ∧
    (∃ l, twoSleep.links.Lists .sleepq l ∧ l.Nodup ∧ l.Pairwise (Before twoSleep.thread) ∧
      ∀ t, (twoSleep.thread t).onTimer = true ↔ t ∈ l) ∧
    (twoSleep.ktimeOnTimer 0 {}).2 = [1] ∧ WakesDue twoSleep (twoSleep.ktimeOnTimer 0 {}).1 [1] ∧
    Armed (twoSleep.ktimeOnTimer 0 {}).1 0 ∧ Armed (twoSleep.switchBook 0 { next := 2, timedEvent := u64Max }) 0 := by
  obtain ⟨hqueue, htimer, hswitch⟩ := sleep_queue twoSleep_reachable
  have hwoken : (twoSleep.ktimeOnTimer 0 {}).2 = [1] := by decide
  refine ⟨⟨rfl, rfl⟩, hqueue, hwoken, ?_, (htimer 0 {}).2, hswitch 0 _ rfl⟩
  rw [← hwoken]
  exact (htimer 0 {}).1

end Time
end KickOS
