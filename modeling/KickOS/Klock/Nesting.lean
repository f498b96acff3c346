import KickOS.Klock.Steps

/-! Whole runs: who holds the lock, who releases it, and the depth a thread comes back with. -/

namespace KickOS
namespace Klock

open Lib

variable {n : Nat} {T : Type} [DecidableEq T] {s s' : St n T} {c d : Fin n} {t next : T} {a : Act n T}

/-! ### One step -/

/-- What a step can do, one case for each way through it. -/
inductive Does (s : St n T) : Act n T → St n T → Prop
  | start {c : Fin n} (hp : (s.core c).phase = .boot) : Does s (.start c) (s.acquire c .start)
  | seat {c : Fin n} {first : T} (hp : (s.core c).phase = .starting) (helse : s.elsewhere c first = false) :
    Does s (.seat c first)
      ((s.setCore c { s.core c with current := some first, onCpu := some first, passOwed := false }).drop c .start)
  | enter {c : Fin n} (hp : (s.core c).phase = .run) : Does s (.enter c) (s.klockEnter c)
  | gain {c : Fin n} {want : Want} (hp : (s.core c).phase = .acquire want) (hturn : s.lock.turn c = true) :
    Does s (.gain c) (s.klockGain c want)
  | poll {c : Fin n} {want : Want} (hp : (s.core c).phase = .acquire want) :
    Does s (.poll c) { s with ipi := Function.update s.ipi c false }
  | leave {c : Fin n} (hp : (s.core c).phase = .run) (hopen : (s.core c).opened s.brackets ≠ 0) :
    Does s (.leave c) (s.klockLeave c)
  | passStay {c : Fin n} (hp : (s.core c).phase = .run) (hopen : (s.core c).opened s.brackets ≠ 0) :
    Does s (.pass c none) (s.setCore c { s.core c with passOwed := false })
  | passBooked {c : Fin n} {next : T} {b : Nat} (hp : (s.core c).phase = .run) (hopen : (s.core c).opened s.brackets ≠ 0)
    (helse : s.elsewhere c next = false) (hne : (s.core c).current ≠ some next) (hisr : (s.core c).isr = some b) :
    Does s (.pass c (some next)) ((s.setCore c { s.core c with passOwed := false }).switchBooked c next)
  | passNow {c : Fin n} {t next : T} (hp : (s.core c).phase = .run) (hopen : (s.core c).opened s.brackets ≠ 0)
    (helse : s.elsewhere c next = false) (hne : (s.core c).current ≠ some next) (hisr : (s.core c).isr = none)
    (hon : (s.core c).onCpu = some t) :
    Does s (.pass c (some next)) ((s.setCore c { s.core c with passOwed := false }).switchNow c t next)
  | stage {c peer : Fin n} (hp : (s.core c).phase = .starting ∨ ((s.core c).phase = .run ∧ (s.core c).opened s.brackets ≠ 0)) :
    Does s (.stage c peer) (s.setCore c { s.core c with raise := Function.update (s.core c).raise peer true })
  | reschedSelf {c : Fin n} (hp : (s.core c).phase = .starting ∨ ((s.core c).phase = .run ∧ (s.core c).opened s.brackets ≠ 0)) :
    Does s (.reschedSelf c)
      (s.setCore c { s.core c with asked := Function.update (s.core c).asked c ((s.core c).asked c + 1) })
  | switchUnlock {c : Fin n} (hp : (s.core c).phase = .unlocking) :
    Does s (.switchUnlock c) ((s.setCore c { s.core c with onCpu := (s.core c).current }).drop c .switch)
  | spanEnd {c : Fin n} {kind : End} (hp : (s.core c).phase = .spanEnd kind) : Does s (.spanEnd c) (s.endSpan c kind)
  | interrupt {c : Fin n} (hp : (s.core c).phase = .run) (hisr : (s.core c).isr = none)
    (hopen : (s.core c).opened s.brackets = 0) : Does s (.interrupt c) (s.setCore c { s.core c with isr := some 0 })
  | doorbell {c : Fin n} (hp : (s.core c).phase = .run) (hisr : (s.core c).isr = none) (hopen : (s.core c).opened s.brackets = 0)
    (hipi : s.ipi c = true) :
    Does s (.doorbell c)
      ({ s with ipi := Function.update s.ipi c false }.setCore c
        { s.core c with isr := some 0, phase := .taking (List.finRange n) false })
  | take {c i : Fin n} {rest : List (Fin n)} {stood : Bool} (hp : (s.core c).phase = .taking (i :: rest) stood) :
    Does s (.take c) (s.takeFrom c i rest stood)
  | taken {c : Fin n} {stood : Bool} (hp : (s.core c).phase = .taking [] stood) :
    Does s (.take c) (s.setCore c { s.core c with phase := .run, passOwed := (s.core c).passOwed || stood })
  | bootTake {c i : Fin n} (hp : (s.core c).phase = .boot) (hneq : (s.core i).asked c % word ≠ (s.core c).took i % word) :
    Does s (.bootTake c i)
      (s.setCore c { s.core c with took := Function.update (s.core c).took i ((s.core i).asked c), passOwed := true })
  | isrReturn {c : Fin n} (hp : (s.core c).phase = .run) (hisr : (s.core c).isr = some 0) (hpass : (s.core c).passOwed = false)
    (hbooked : (s.core c).booked = false) : Does s (.isrExit c) (s.setCore c { s.core c with isr := none })
  | isrSwitch {c : Fin n} {t : T} (hp : (s.core c).phase = .run) (hisr : (s.core c).isr = some 0)
    (hpass : (s.core c).passOwed = false) (hbooked : (s.core c).booked = true) (hon : (s.core c).onCpu = some t) :
    Does s (.isrExit c)
      ({ s with frame := Function.update s.frame t .interrupted }.setCore c
        { s.core c with isr := none, booked := false, phase := .unlocking })
  | build {t : T} (hfree : ∀ d, s.has d t = false) :
    Does s (.build t) { s with frame := Function.update s.frame t .fresh, brackets := Function.update s.brackets t 0 }

theorem elsewhere_of_note {k : Core n T} (h : (s.setCore c k).elsewhere c t = false) : s.elsewhere c t = false := by
  refine elsewhere_false_iff.mpr fun d hd => ?_
  have := elsewhere_false_iff.mp h d hd
  simpa only [St.has, setCore_core_of_ne hd] using this

theorem step_pass {next : Option T} (hs : s.step (.pass c next) = some s') : Does s (.pass c next) s' := by
  dsimp only [St.step] at hs
  split at hs
  · rename_i hp
    cases next with
    | none =>
      cases hs
      exact .passStay hp.1 hp.2
    | some next =>
      simp only [setCore_core_self] at hs
      split at hs
      · cases hs
      · rename_i hfree
        rw [not_or, Bool.not_eq_true] at hfree
        split at hs
        · rename_i b hisr
          cases hs
          exact .passBooked hp.1 hp.2 (elsewhere_of_note hfree.1) hfree.2 hisr
        · rename_i t hisr hon
          cases hs
          exact .passNow hp.1 hp.2 (elsewhere_of_note hfree.1) hfree.2 hisr hon
        · cases hs
  · cases hs

omit [DecidableEq T] in
/-- An act behind a test is enabled where the test is passed. -/
theorem step_guard {p : Prop} [Decidable p] {x : St n T} (h : (if p then some x else none) = some s') : p ∧ x = s' := by
  simpa using h

theorem gain_does (hs : s.step (.gain c) = some s') : Does s (.gain c) s' := by
  dsimp only [St.step] at hs
  split at hs
  · rename_i want hp
    split at hs
    · rename_i hturn
      cases hs
      exact .gain hp hturn
    · cases hs
  · cases hs

theorem take_does (hs : s.step (.take c) = some s') : Does s (.take c) s' := by
  dsimp only [St.step] at hs
  split at hs
  · rename_i i rest stood hp
    cases hs
    exact .take hp
  · rename_i stood hp
    cases hs
    exact .taken hp
  · cases hs

theorem isrExit_does (hs : s.step (.isrExit c) = some s') : Does s (.isrExit c) s' := by
  dsimp only [St.step] at hs
  split at hs
  · rename_i hp
    split at hs
    · rename_i hbooked
      cases hs
      exact .isrReturn hp.1 hp.2.1 hp.2.2 hbooked
    · rename_i t hbooked hon
      cases hs
      exact .isrSwitch hp.1 hp.2.1 hp.2.2 hbooked hon
    · cases hs
  · cases hs

theorem build_does (hs : s.step (.build t) = some s') : Does s (.build t) s' := by
  dsimp only [St.step] at hs
  split at hs
  · cases hs
  · rename_i hfree
    cases hs
    refine .build fun d => ?_
    rw [Bool.not_eq_true, List.any_eq_false] at hfree
    simpa using hfree d (List.mem_finRange d)

theorem step_does (hs : s.step a = some s') : Does s a s' := by
  cases a with
  | start c =>
    obtain ⟨hp, rfl⟩ := step_guard hs
    exact .start hp
  | seat c first =>
    obtain ⟨hp, rfl⟩ := step_guard hs
    exact .seat hp.1 hp.2
  | enter c =>
    obtain ⟨hp, rfl⟩ := step_guard hs
    exact .enter hp
  | gain c => exact gain_does hs
  | poll c =>
    dsimp only [St.step] at hs
    split at hs
    · rename_i want hp
      cases hs
      exact .poll hp
    · cases hs
  | leave c =>
    obtain ⟨hp, rfl⟩ := step_guard hs
    exact .leave hp.1 hp.2
  | pass c next => exact step_pass hs
  | stage c peer =>
    obtain ⟨hp, rfl⟩ := step_guard hs
    exact .stage hp
  | reschedSelf c =>
    obtain ⟨hp, rfl⟩ := step_guard hs
    exact .reschedSelf hp
  | switchUnlock c =>
    obtain ⟨hp, rfl⟩ := step_guard hs
    exact .switchUnlock hp
  | spanEnd c =>
    dsimp only [St.step] at hs
    split at hs
    · rename_i kind hp
      cases hs
      exact .spanEnd hp
    · cases hs
  | interrupt c =>
    obtain ⟨hp, rfl⟩ := step_guard hs
    exact .interrupt hp.1 hp.2.1 hp.2.2
  | doorbell c =>
    obtain ⟨hp, rfl⟩ := step_guard hs
    exact .doorbell hp.1 hp.2.1 hp.2.2.1 hp.2.2.2
  | take c => exact take_does hs
  | bootTake c i =>
    obtain ⟨hp, rfl⟩ := step_guard hs
    exact .bootTake hp.1 hp.2
  | isrExit c => exact isrExit_does hs
  | build t => exact build_does hs

theorem elsewhere_note {k : Core n T} (h : s.elsewhere c t = false) (d : Fin n) (hd : d ≠ c) :
    (s.setCore c k).has d t = false := by
  have := elsewhere_false_iff.mp h d hd
  simpa only [St.has, setCore_core_of_ne hd] using this

theorem inv_step (h : Inv s) (hs : s.step a = some s') : Inv s' := by
  cases step_does hs with
  | start hp =>
    rename_i c
    have hshape := (h.cores c).shape
    rw [Core.Shape, hp] at hshape
    obtain ⟨hidle, hclear⟩ := hshape
    refine h.acquire hclear (fun want hw => ?_) ⟨⟨hidle.onCpu, hidle.current, hidle.isr, hidle.booked⟩, hclear⟩
    rw [hp] at hw
    cases hw
  | seat hp helse => exact inv_seat h hp (elsewhere_false_iff.mp helse)
  | enter hp => exact inv_enter h hp
  | gain hp hturn => exact inv_gain h hp hturn
  | poll hp => exact ⟨h.lock, h.cores, h.apart, h.live, h.rest⟩
  | leave hp hopen => exact inv_leave h hp hopen
  | passStay hp hopen => exact inv_note h
  | passBooked hp hopen helse hne hisr =>
    exact inv_switchBooked (inv_note h) (by rw [setCore_core_self]; exact hp) (by rw [setCore_core_self]; exact hisr)
      (by rw [setCore_core_self]; exact hopen) (elsewhere_note helse)
  | passNow hp hopen helse hne hisr hon =>
    exact inv_switchNow (inv_note h) (by rw [setCore_core_self]; exact hp) (by rw [setCore_core_self]; exact hisr)
      (by rw [setCore_core_self]; exact hon) (by rw [setCore_core_self]; exact hopen) (elsewhere_note helse)
      (by rw [setCore_core_self]; exact hne)
  | stage hp => exact inv_note h
  | reschedSelf hp => exact inv_note h
  | switchUnlock hp => exact inv_switchUnlock h hp
  | spanEnd hp => exact inv_endSpan h hp
  | interrupt hp hisr hopen => exact inv_interrupt h hp hisr hopen (Or.inl hp)
  | doorbell hp hisr hopen hipi => exact inv_interrupt h hp hisr hopen (Or.inr ⟨_, _, rfl⟩)
  | take hp =>
    unfold St.takeFrom
    dsimp only
    split
    · exact inv_taking h hp (Or.inr rfl)
    · exact inv_taking h hp (Or.inr rfl)
  | taken hp => exact inv_taking h hp (Or.inl rfl : _ ∨ _ = Phase.taking [] false)
  | bootTake hp hneq => exact inv_note h
  | isrReturn hp hisr hpass hbooked => exact inv_isrReturn h hp hisr hbooked
  | isrSwitch hp hisr hpass hbooked hon => exact inv_isrSwitch h hp hisr hbooked hon
  | build hfree => exact inv_build h hfree

theorem Reachable.inv (h : Reachable s) : Inv s := by
  induction h with
  | init => exact inv_initial
  | step _ hs ih => exact inv_step ih hs

/-! ### The lock -/

omit [DecidableEq T] in
@[simp] theorem setCore_lock {k : Core n T} : (s.setCore c k).lock = s.lock := rfl

@[simp] theorem bracket_lock {f : Nat → Nat} : (s.bracket c f).lock = s.lock := by
  unfold St.bracket
  split
  · rfl
  · split <;> rfl

@[simp] theorem bracket_frame {f : Nat → Nat} : (s.bracket c f).frame = s.frame := by
  unfold St.bracket
  split
  · rfl
  · split <;> rfl

theorem klockGain_lock {want : Want} : (s.klockGain c want).lock = s.lock.gain c := by
  cases want with
  | start => rfl
  | enter =>
    show (St.bracket _ c (· + 1)).lock = s.lock.gain c
    rw [bracket_lock]
    rfl
  | attach depth =>
    simp only [St.klockGain]
    split <;> rfl

theorem goOn_lock (s : St n T) (c : Fin n) (kind : End) : (s.goOn c kind).lock = s.lock ∨
    (s.goOn c kind).lock = s.lock.draw c := by
  have hresume : ∀ t, (s.resume c t).lock = s.lock ∨ (s.resume c t).lock = s.lock.draw c := fun t => by
    unfold St.resume
    split
    · unfold St.klockAttach
      split
      · exact Or.inr rfl
      · exact Or.inl rfl
    · exact Or.inl rfl
  unfold St.goOn
  split
  · exact Or.inl rfl
  · exact hresume _
  · exact Or.inl rfl

omit [DecidableEq T] in
theorem spanRaise_lock {kind : End} : (s.spanRaise c kind).lock = s.lock := by
  obtain ⟨ipi, heq⟩ := spanRaise_eq s c kind
  rw [heq]
  rfl

/-- A step moves the lock as its own core may: a number drawn, the lock gained in turn, or released by its holder, whose
span then ends. -/
theorem lock_step (h : Inv s) (hs : s.step a = some s') :
    s'.lock = s.lock ∨ ∃ c, a.core = some c ∧
      (s'.lock = s.lock.draw c ∨ (s.lock.turn c = true ∧ s'.lock = s.lock.gain c) ∨
        (s.lock.holding c = true ∧ s'.lock = s.lock.release c ∧ ∃ kind, (s'.core c).phase = .spanEnd kind)) := by
  cases step_does hs with
  | start hp => exact Or.inr ⟨_, rfl, Or.inl rfl⟩
  | seat hp helse =>
    rename_i c first
    have hshape := (h.cores c).shape
    rw [Core.Shape, hp] at hshape
    refine Or.inr ⟨c, rfl, Or.inr (Or.inr ⟨h.holding (Or.inl ?_), rfl, .start, ?_⟩)⟩
    · rw [hshape.2.1]
      exact Nat.one_ne_zero
    · simp only [St.drop, setCore_core_self]
  | enter hp =>
    rename_i c
    unfold St.klockEnter
    split
    · exact Or.inr ⟨c, rfl, Or.inl rfl⟩
    · exact Or.inl bracket_lock
  | gain hp hturn => exact Or.inr ⟨_, rfl, Or.inr (Or.inl ⟨hturn, klockGain_lock⟩)⟩
  | leave hp hopen =>
    rename_i c
    have hpos : (s.core c).depth ≠ 0 := by
      rw [(h.running hp).1]
      exact hopen
    unfold St.klockLeave
    dsimp only
    split
    · refine Or.inr ⟨c, rfl, Or.inr (Or.inr ⟨h.holding (Or.inl hpos), ?_, .leave, ?_⟩)⟩
      · rw [setCore_lock, bracket_lock, setCore_lock]
      · rw [setCore_core_self]
    · exact Or.inl bracket_lock
  | passBooked hp hopen helse hne hisr =>
    simp only [St.switchBooked, St.klockDetach, St.klockAttach, setCore_core_self, Nat.one_ne_zero, if_false]
    exact Or.inl rfl
  | switchUnlock hp =>
    rename_i c
    have hshape := (h.cores c).shape
    rw [Core.Shape, hp] at hshape
    refine Or.inr ⟨c, rfl, Or.inr (Or.inr ⟨h.holding (Or.inr ?_), rfl, .switch, ?_⟩)⟩
    · rw [hshape.2.1]
      exact Nat.one_ne_zero
    · simp only [St.drop, setCore_core_self]
  | spanEnd hp =>
    rename_i c kind
    rcases goOn_lock (s.spanRaise c kind) c kind with hl | hl
    · exact Or.inl (hl.trans spanRaise_lock)
    · exact Or.inr ⟨c, rfl, Or.inl (by rw [St.endSpan, hl, spanRaise_lock])⟩
  | take hp =>
    left
    unfold St.takeFrom
    dsimp only
    split <;> rfl
  | poll | passStay | passNow | stage | reschedSelf | interrupt | doorbell | taken | bootTake | isrReturn | isrSwitch
    | build => exact Or.inl rfl

theorem released_by_holder (h : Inv s) (hs : s.step a = some s') (hserving : s'.lock.serving ≠ s.lock.serving) :
    ∃ c, a.core = some c ∧ s.lock.holding c = true ∧ s'.lock = s.lock.release c := by
  rcases lock_step h hs with hl | ⟨c, hc, hl | ⟨-, hl⟩ | ⟨hhold, hl, -⟩⟩
  · rw [hl] at hserving
    exact absurd rfl hserving
  · rw [hl] at hserving
    exact absurd rfl hserving
  · rw [hl] at hserving
    exact absurd rfl hserving
  · exact ⟨c, hc, hhold, hl⟩

/-! ### Parked threads -/

/-- The depth a saved frame stands for: an exception saves none with a bracket open. -/
def Frame.depth : Frame → Nat
  | .parked depth => depth
  | _ => 0

/-- The core goes on with the thread, at the depth its frame was saved with. -/
structure GoesOn (s s' : St n T) (e : Fin n) (t : T) : Prop where
  live : s'.frame t = .live
  phase : (s'.core e).phase = .run
  isr : (s'.core e).isr = none
  onCpu : (s'.core e).onCpu = some t
  depth : (s'.core e).depth = (s.frame t).depth

theorem gain_frame {want : Want} (h : Inv s) (hp : (s.core c).phase = .acquire want) :
    (s.klockGain c want).frame t = s.frame t ∨ GoesOn s (s.klockGain c want) c t := by
  have hshape := (h.cores c).shape
  cases want with
  | start => exact Or.inl rfl
  | enter =>
    left
    show (St.bracket _ c (· + 1)).frame t = s.frame t
    rw [bracket_frame]
    rfl
  | attach depth =>
    rw [Core.Shape, hp] at hshape
    obtain ⟨-, u, hu, hparked⟩ := hshape
    rw [klockGain_attach hu.onCpu]
    by_cases htu : t = u
    · subst htu
      refine Or.inr ⟨Function.update_self .., ?_, ?_, ?_, ?_⟩
      · simp only [Function.update_self]
      · simp only [Function.update_self]
        exact hu.isr
      · simp only [Function.update_self]
        exact hu.onCpu
      · simp only [Function.update_self, hparked, Frame.depth]
    · exact Or.inl (Function.update_of_ne htu ..)

theorem resume_frame {u : T} (hu : (s.core c).Entering s.frame u) (hclear : (s.core c).Clear) :
    (s.resume c u).frame t = s.frame t ∨ GoesOn s (s.resume c u) c t := by
  unfold St.resume
  split
  · unfold St.klockAttach
    split
    · exact Or.inl rfl
    · exact Or.inl rfl
  · rename_i hnot
    by_cases htu : t = u
    · subst htu
      refine Or.inr ⟨Function.update_self .., ?_, ?_, ?_, ?_⟩
      · rw [setCore_core_self]
      · rw [setCore_core_self]
        exact hu.isr
      · rw [setCore_core_self]
        exact hu.onCpu
      · rw [setCore_core_self, Frame.depth.eq_def]
        split
        · rename_i depth hd
          exact absurd hd (hnot depth)
        · exact hclear.1
    · exact Or.inl (Function.update_of_ne htu ..)

theorem goOn_frame {kind : End} (h : Inv s) (hp : (s.core c).phase = .spanEnd kind) :
    (s.goOn c kind).frame t = s.frame t ∨ GoesOn s (s.goOn c kind) c t := by
  have hshape := (h.cores c).shape
  rw [Core.Shape, hp] at hshape
  cases kind with
  | leave => exact Or.inl rfl
  | switch =>
    obtain ⟨hclear, u, hu⟩ := hshape
    rw [goOn_some (by simp) hu.onCpu]
    exact resume_frame hu hclear
  | start =>
    obtain ⟨hclear, u, hu⟩ := hshape
    rw [goOn_some (by simp) hu.onCpu]
    exact resume_frame hu hclear

theorem inv_spanRaise (h : Inv s) (c : Fin n) (kind : End) : Inv (s.spanRaise c kind) ∧ (s.spanRaise c kind).frame = s.frame ∧
    ((s.spanRaise c kind).core c).phase = (s.core c).phase := by
  obtain ⟨ipi, heq⟩ := spanRaise_eq s c kind
  rw [heq]
  refine ⟨inv_note h, rfl, ?_⟩
  simp only [St.setCore, Function.update_self]

theorem frame_kept (h : Inv s) (hs : s.step a = some s') (hbuild : a ≠ .build t) (hf : s.frame t ≠ .live) :
    s'.frame t = s.frame t ∨ ∃ e, a.core = some e ∧ GoesOn s s' e t := by
  cases step_does hs with
  | enter hp =>
    left
    unfold St.klockEnter
    split
    · rfl
    · rw [bracket_frame]
      rfl
  | gain hp hturn =>
    rcases gain_frame h hp with hk | hg
    · exact Or.inl hk
    · exact Or.inr ⟨_, rfl, hg⟩
  | leave hp hopen =>
    left
    unfold St.klockLeave
    dsimp only
    split
    · show (St.bracket _ _ _).frame t = s.frame t
      rw [bracket_frame]
      rfl
    · rw [bracket_frame]
      rfl
  | passBooked hp hopen helse hne hisr =>
    simp only [St.switchBooked, St.klockDetach, St.klockAttach, setCore_core_self, Nat.one_ne_zero, if_false]
    exact Or.inl rfl
  | passNow hp hopen helse hne hisr hon =>
    rename_i c u next
    obtain ⟨-, -, v, hv⟩ := h.running hp
    obtain rfl := Option.some.inj (hon.symm.trans hv.onCpu)
    have htu : t ≠ u := by
      rintro rfl
      exact hf hv.live
    exact Or.inl (Function.update_of_ne htu ..)
  | spanEnd hp =>
    rename_i c kind
    obtain ⟨hinv, hframe, hphase⟩ := inv_spanRaise h c kind
    rcases goOn_frame (t := t) hinv (hphase.trans hp) with hk | hg
    · exact Or.inl (hk.trans (congrFun hframe t))
    · exact Or.inr ⟨c, rfl, hg.live, hg.phase, hg.isr, hg.onCpu, by rw [← hframe]; exact hg.depth⟩
  | take hp =>
    left
    unfold St.takeFrom
    dsimp only
    split <;> rfl
  | isrSwitch hp hisr hpass hbooked hon =>
    rename_i c u
    obtain ⟨-, -, v, hv⟩ := h.running hp
    obtain rfl := Option.some.inj (hon.symm.trans hv.onCpu)
    have htu : t ≠ u := by
      rintro rfl
      exact hf hv.live
    exact Or.inl (Function.update_of_ne htu ..)
  | build hfree =>
    rename_i u
    have htu : t ≠ u := by
      rintro rfl
      exact hbuild rfl
    exact Or.inl (Function.update_of_ne htu ..)
  | start | seat | poll | passStay | stage | reschedSelf | switchUnlock | interrupt | doorbell | taken | bootTake
    | isrReturn => exact Or.inl rfl

theorem frame_saved (h : Inv s) (hs : s.step a = some s') (hf : s.frame t = .live) (hf' : s'.frame t ≠ .live) :
    ∃ c, a.core = some c ∧ (s.core c).onCpu = some t ∧ (s'.frame t).depth = (s.core c).depth := by
  cases step_does hs with
  | enter hp =>
    refine absurd ?_ hf'
    unfold St.klockEnter
    split
    · exact hf
    · rw [bracket_frame]
      exact hf
  | gain hp hturn =>
    rename_i c want
    refine absurd ?_ hf'
    cases want with
    | start => exact hf
    | enter =>
      show (St.bracket _ c (· + 1)).frame t = .live
      rw [bracket_frame]
      exact hf
    | attach depth =>
      have hshape := (h.cores c).shape
      rw [Core.Shape, hp] at hshape
      obtain ⟨-, u, hu, -⟩ := hshape
      rw [klockGain_attach hu.onCpu]
      show Function.update s.frame u .live t = .live
      by_cases htu : t = u
      · rw [htu, Function.update_self]
      · rw [Function.update_of_ne htu]
        exact hf
  | leave hp hopen =>
    refine absurd ?_ hf'
    unfold St.klockLeave
    dsimp only
    split
    · show (St.bracket _ _ _).frame t = .live
      rw [bracket_frame]
      exact hf
    · rw [bracket_frame]
      exact hf
  | passBooked hp hopen helse hne hisr =>
    simp only [St.switchBooked, St.klockDetach, St.klockAttach, setCore_core_self, Nat.one_ne_zero, if_false] at hf'
    exact absurd hf hf'
  | passNow hp hopen helse hne hisr hon =>
    rename_i c u next
    simp only [St.switchNow, St.klockDetach, setCore_core_self] at hf' ⊢
    by_cases htu : t = u
    · subst htu
      refine ⟨c, rfl, hon, ?_⟩
      show (Function.update s.frame t (.parked (s.core c).depth) t).depth = (s.core c).depth
      rw [Function.update_self]
      rfl
    · exact absurd ((Function.update_of_ne htu ..).trans hf) hf'
  | spanEnd hp =>
    rename_i c kind
    refine absurd ?_ hf'
    obtain ⟨hinv, hframe, hphase⟩ := inv_spanRaise h c kind
    rcases goOn_frame (t := t) hinv (hphase.trans hp) with hk | hg
    · exact hk.trans ((congrFun hframe t).trans hf)
    · exact hg.live
  | take hp =>
    refine absurd ?_ hf'
    unfold St.takeFrom
    dsimp only
    split
    · exact hf
    · exact hf
  | isrSwitch hp hisr hpass hbooked hon =>
    rename_i c u
    by_cases htu : t = u
    · subst htu
      refine ⟨c, rfl, hon, ?_⟩
      rw [(h.running hp).1, Core.opened, hisr]
      show (Function.update s.frame t .interrupted t).depth = 0
      rw [Function.update_self]
      rfl
    · exact absurd ((Function.update_of_ne htu ..).trans hf) hf'
  | build hfree =>
    rename_i u
    by_cases htu : t = u
    · subst htu
      obtain ⟨c, hc⟩ := h.live hf
      have := hfree c
      rw [has_iff.mpr (Or.inr hc)] at this
      cases this
    · exact absurd ((Function.update_of_ne htu ..).trans hf) hf'
  | start | seat | poll | passStay | stage | reschedSelf | switchUnlock | interrupt | doorbell | taken | bootTake | isrReturn =>
    exact absurd hf hf'

/-- A run: steps, each of which meets `ok` with the state it leaves. -/
inductive Run (ok : Act n T → St n T → Prop) (s : St n T) : St n T → Prop
  | refl : Run ok s s
  | step {u v : St n T} {a : Act n T} : Run ok s u → u.step a = some v → ok a v → Run ok s v

theorem Run.trans {ok : Act n T → St n T → Prop} {u : St n T} (h : Run ok s s') (h' : Run ok s' u) : Run ok s u := by
  induction h' with
  | refl => exact h
  | step _ hs hok ih => exact ih.step hs hok

theorem Run.inv {ok : Act n T → St n T → Prop} (hr : Run ok s s') (h : Inv s) : Inv s' := by
  induction hr with
  | refl => exact h
  | step _ hs _ ih => exact inv_step ih hs

theorem goes_on (hr : Run (fun b _ => b ≠ .build t) s s') (h : Inv s) (hf : s.frame t ≠ .live) :
    s'.frame t = s.frame t ∨ ∃ u v b e, Run (fun b _ => b ≠ .build t) s u ∧ u.step b = some v ∧
      Run (fun b _ => b ≠ .build t) v s' ∧ b.core = some e ∧ u.frame t = s.frame t ∧ GoesOn s v e t := by
  induction hr with
  | refl => exact Or.inl rfl
  | @step u v b hru hs hne ih =>
    rcases ih with hk | ⟨w, x, b', e, hrw, hsw, hrx, hcore, hkept, hg⟩
    · rcases frame_kept (hru.inv h) hs hne (hk ▸ hf) with hk' | ⟨e, hcore, hg⟩
      · exact Or.inl (hk'.trans hk)
      · exact Or.inr ⟨u, v, b, e, hru, hs, .refl, hcore, hk, hg.live, hg.phase, hg.isr, hg.onCpu, hg.depth.trans (by rw [hk])⟩
    · exact Or.inr ⟨w, x, b', e, hrw, hsw, hrx.step hs hne, hcore, hkept, hg⟩

end Klock
end KickOS
