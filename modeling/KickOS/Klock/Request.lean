import KickOS.Klock.Nesting

/-! What a step leaves of the reschedule words, the staged work and the doorbells. -/

namespace KickOS
namespace Klock

open Lib

variable {n : Nat} {T : Type} [DecidableEq T] {s s' : St n T} {c d i t : Fin n} {a : Act n T} {k k' : Core n T}

/-! ### What a step leaves of the words -/

/-- The words and notes of a row. -/
structure Same (k k' : Core n T) : Prop where
  raise : k'.raise = k.raise
  asked : k'.asked = k.asked
  took : k'.took = k.took
  passOwed : k'.passOwed = k.passOwed

omit [DecidableEq T] in
theorem Same.rfl : Same k k := ⟨Eq.refl _, Eq.refl _, Eq.refl _, Eq.refl _⟩

omit [DecidableEq T] in
theorem Same.trans {k'' : Core n T} (h : Same k k') (h' : Same k' k'') : Same k k'' :=
  ⟨h'.raise.trans h.raise, h'.asked.trans h.asked, h'.took.trans h.took, h'.passOwed.trans h.passOwed⟩

omit [DecidableEq T] in
theorem update_same {core : Fin n → Core n T} (h : Same (core c) k) (d : Fin n) : Same (core d) (Function.update core c k d) := by
  by_cases hd : d = c
  · subst hd
    rw [Function.update_self]
    exact h
  · rw [Function.update_of_ne hd]
    exact .rfl

theorem bracket_same {f : Nat → Nat} (d : Fin n) : Same (s.core d) ((s.bracket c f).core d) := by
  unfold St.bracket
  split
  · exact update_same (by exact ⟨rfl, rfl, rfl, rfl⟩) d
  · split
    · exact .rfl
    · exact .rfl

theorem bracketed_same {f : Nat → Nat} (h : Same (s.core c) k) (d : Fin n) :
    Same (s.core d) (((s.setCore c k).bracket c f).core d) := by
  have hset : Same (s.core d) ((s.setCore c k).core d) := update_same h d
  exact hset.trans (bracket_same d)

omit [DecidableEq T] in
theorem acquire_same {want : Want} (d : Fin n) : Same (s.core d) ((s.acquire c want).core d) :=
  update_same (by exact ⟨rfl, rfl, rfl, rfl⟩) d

theorem enter_same (d : Fin n) : Same (s.core d) ((s.klockEnter c).core d) := by
  unfold St.klockEnter
  split
  · exact acquire_same d
  · refine bracketed_same ?_ d
    exact ⟨rfl, rfl, rfl, rfl⟩

theorem gain_same {want : Want} (d : Fin n) : Same (s.core d) ((s.klockGain c want).core d) := by
  cases want with
  | start => exact update_same (by exact ⟨rfl, rfl, rfl, rfl⟩) d
  | enter =>
    refine bracketed_same (s := { s with lock := s.lock.gain c }) ?_ d
    exact ⟨rfl, rfl, rfl, rfl⟩
  | attach depth =>
    simp only [St.klockGain]
    split
    · exact update_same (by exact ⟨rfl, rfl, rfl, rfl⟩) d
    · exact update_same (by exact ⟨rfl, rfl, rfl, rfl⟩) d

theorem leave_same (d : Fin n) : Same (s.core d) ((s.klockLeave c).core d) := by
  unfold St.klockLeave
  dsimp only
  have hfirst := bracketed_same (k := { s.core c with depth := (s.core c).depth - 1 }) (f := (· - 1)) ⟨rfl, rfl, rfl, rfl⟩ d
  split
  · refine hfirst.trans (update_same ?_ d)
    exact ⟨rfl, rfl, rfl, rfl⟩
  · exact hfirst

omit [DecidableEq T] in
theorem drop_same {kind : End} (d : Fin n) : Same (s.core d) ((s.drop c kind).core d) :=
  update_same (by exact ⟨rfl, rfl, rfl, rfl⟩) d

theorem resume_same {u : T} (d : Fin n) : Same (s.core d) ((s.resume c u).core d) := by
  unfold St.resume
  split
  · unfold St.klockAttach
    split
    · exact acquire_same d
    · exact update_same (by exact ⟨rfl, rfl, rfl, rfl⟩) d
  · exact update_same (by exact ⟨rfl, rfl, rfl, rfl⟩) d

theorem goOn_same (s : St n T) (c : Fin n) (kind : End) (d : Fin n) : Same (s.core d) ((s.goOn c kind).core d) := by
  unfold St.goOn
  split
  · exact update_same (by exact ⟨rfl, rfl, rfl, rfl⟩) d
  · exact resume_same d
  · exact .rfl

omit [DecidableEq T] in
theorem switchBooked_eq {next : T} :
    s.switchBooked c next = s.setCore c { s.core c with current := some next, owed := 1, booked := true } := by
  simp only [St.switchBooked, St.klockDetach, St.klockAttach, setCore_core_self, setCore_setCore]
  rfl

theorem switchNow_same {u next : T} (d : Fin n) : Same (s.core d) ((s.switchNow c u next).core d) := by
  have heq : (s.switchNow c u next).core =
      (s.setCore c { s.core c with current := some next, depth := 0, owed := 1, phase := .unlocking }).core := by
    simp only [St.switchNow, St.klockDetach, St.setCore, Function.update_self, Function.update_idem]
  rw [heq]
  exact update_same (by exact ⟨rfl, rfl, rfl, rfl⟩) d

/-! ### The end of a span -/

omit [DecidableEq T] in
theorem flush_asked : ((s.flush c).core c).asked d = if (s.core c).raise d && decide (d ≠ c) then
    (s.core c).asked d + 1 else (s.core c).asked d := by
  simp only [St.flush, setCore_core_self]

omit [DecidableEq T] in
theorem flush_took : ((s.flush c).core d).took = (s.core d).took := by
  by_cases hd : d = c
  · subst hd
    simp only [St.flush, setCore_core_self]
  · simp only [St.flush, setCore_core_of_ne hd]

omit [DecidableEq T] in
theorem flush_asked_self : ((s.flush c).core i).asked c = (s.core i).asked c := by
  by_cases hi : i = c
  · subst hi
    rw [flush_asked]
    simp
  · simp only [St.flush, setCore_core_of_ne hi]

omit [DecidableEq T] in
theorem flush_reschedOwedOn : (s.flush c).reschedOwedOn c = s.reschedOwedOn c := by
  simp only [St.reschedOwedOn, flush_asked_self, flush_took]

/-- What the end of a span leaves: the staged work asked for, and its own doorbell where a reschedule stands. -/
theorem endSpan_words (s : St n T) (c : Fin n) (kind : End) :
    ((s.endSpan c kind).core c).asked = ((s.flush c).core c).asked ∧ ((s.endSpan c kind).core c).took = (s.core c).took ∧
      ((s.endSpan c kind).core c).passOwed = (s.core c).passOwed := by
  obtain ⟨ipi, heq⟩ := spanRaise_eq s c kind
  have hsame := goOn_same (s.spanRaise c kind) c kind c
  have hcore : (s.spanRaise c kind).core c =
      { s.core c with raise := ((s.flush c).core c).raise, asked := ((s.flush c).core c).asked } := by
    rw [heq]
    exact setCore_core_self
  rw [hcore] at hsame
  exact ⟨hsame.asked, hsame.took, hsame.passOwed⟩

theorem goOn_ipi {kind : End} : (s.goOn c kind).ipi = s.ipi := by
  unfold St.goOn
  split
  · rfl
  · unfold St.resume
    split
    · unfold St.klockAttach
      split
      · rfl
      · rfl
    · rfl
  · rfl

theorem endSpan_ipi_of_ne {kind : End} (hd : d ≠ c) : (s.endSpan c kind).ipi d = (s.ipi d || (s.core c).raise d) := by
  rw [St.endSpan, goOn_ipi, St.spanRaise]
  have hflush : (s.flush c).ipi d = (s.ipi d || (s.core c).raise d) := by
    simp [St.flush, St.setCore, hd]
  split
  · show Function.update (s.flush c).ipi c true d = _
    rw [Function.update_of_ne hd, hflush]
  · exact hflush

theorem endSpan_ipi_self {kind : End} (h : s.ipi c = true ∨ (kind ≠ .start ∧ s.reschedOwedOn c = true)) :
    (s.endSpan c kind).ipi c = true := by
  rw [St.endSpan, goOn_ipi, St.spanRaise, flush_reschedOwedOn]
  split
  · exact Function.update_self ..
  · rename_i hnot
    rcases h with h | h
    · simp [St.flush, St.setCore, h]
    · exact absurd h hnot

theorem endSpan_core_of_ne {kind : End} (hd : d ≠ c) : (s.endSpan c kind).core d = s.core d := by
  have hresume : ∀ {u : St n T} {t : T}, (u.resume c t).core d = u.core d := fun {u t} => by
    unfold St.resume
    split
    · unfold St.klockAttach
      split
      · exact setCore_core_of_ne hd
      · exact setCore_core_of_ne hd
    · exact setCore_core_of_ne hd
  have hgo : ∀ {u : St n T}, (u.goOn c kind).core d = u.core d := fun {u} => by
    unfold St.goOn
    split
    · exact setCore_core_of_ne hd
    · exact hresume
    · rfl
  rw [St.endSpan, hgo]
  obtain ⟨ipi, heq⟩ := spanRaise_eq s c kind
  rw [heq]
  exact setCore_core_of_ne hd

/-! ### One core's step, seen from another -/

theorem bracket_core_of_ne {f : Nat → Nat} (hd : d ≠ c) : (s.bracket c f).core d = s.core d := by
  unfold St.bracket
  split
  · exact setCore_core_of_ne hd
  · split
    · rfl
    · rfl

theorem core_of_ne (hs : s.step a = some s') (hd : a.core ≠ some d) : s'.core d = s.core d := by
  have hne : ∀ {c : Fin n}, a.core = some c → d ≠ c := by
    rintro c hc rfl
    exact hd hc
  cases step_does hs with
  | start hp => exact setCore_core_of_ne (hne rfl)
  | seat hp helse => exact (setCore_core_of_ne (hne rfl)).trans (setCore_core_of_ne (hne rfl))
  | enter hp =>
    unfold St.klockEnter
    split
    · exact setCore_core_of_ne (hne rfl)
    · exact (bracket_core_of_ne (hne rfl)).trans (setCore_core_of_ne (hne rfl))
  | gain hp hturn =>
    rename_i c want
    cases want with
    | start => exact setCore_core_of_ne (hne rfl)
    | enter => exact (bracket_core_of_ne (hne rfl)).trans (setCore_core_of_ne (hne rfl))
    | attach depth =>
      simp only [St.klockGain]
      split
      · exact setCore_core_of_ne (hne rfl)
      · exact setCore_core_of_ne (hne rfl)
  | poll hp => rfl
  | leave hp hopen =>
    unfold St.klockLeave
    dsimp only
    split
    · refine (setCore_core_of_ne (hne rfl)).trans ?_
      exact (bracket_core_of_ne (hne rfl)).trans (setCore_core_of_ne (hne rfl))
    · exact (bracket_core_of_ne (hne rfl)).trans (setCore_core_of_ne (hne rfl))
  | passStay hp hopen => exact setCore_core_of_ne (hne rfl)
  | passBooked hp hopen helse hnext hisr =>
    rw [switchBooked_eq]
    exact (setCore_core_of_ne (hne rfl)).trans (setCore_core_of_ne (hne rfl))
  | passNow hp hopen helse hnext hisr hon =>
    simp only [St.switchNow, St.klockDetach]
    refine (setCore_core_of_ne (hne rfl)).trans ?_
    exact (setCore_core_of_ne (hne rfl)).trans ((setCore_core_of_ne (hne rfl)).trans (setCore_core_of_ne (hne rfl)))
  | stage hp => exact setCore_core_of_ne (hne rfl)
  | reschedSelf hp => exact setCore_core_of_ne (hne rfl)
  | switchUnlock hp => exact (setCore_core_of_ne (hne rfl)).trans (setCore_core_of_ne (hne rfl))
  | spanEnd hp => exact endSpan_core_of_ne (hne rfl)
  | interrupt hp hisr hopen => exact setCore_core_of_ne (hne rfl)
  | doorbell hp hisr hopen hipi => exact setCore_core_of_ne (hne rfl)
  | take hp =>
    unfold St.takeFrom
    dsimp only
    split
    · exact setCore_core_of_ne (hne rfl)
    · exact setCore_core_of_ne (hne rfl)
  | taken hp => exact setCore_core_of_ne (hne rfl)
  | bootTake hp hneq => exact setCore_core_of_ne (hne rfl)
  | isrReturn hp hisr hpass hbooked => exact setCore_core_of_ne (hne rfl)
  | isrSwitch hp hisr hpass hbooked hon => exact setCore_core_of_ne (hne rfl)
  | build hfree => rfl

theorem bracket_ipi {f : Nat → Nat} : (s.bracket c f).ipi = s.ipi := by
  unfold St.bracket
  split
  · rfl
  · split
    · rfl
    · rfl

theorem ipi_kept (hs : s.step a = some s') (hpoll : a ≠ .poll d) (hbell : a ≠ .doorbell d) (hi : s.ipi d = true) :
    s'.ipi d = true := by
  cases step_does hs with
  | enter hp =>
    unfold St.klockEnter
    split
    · exact hi
    · rw [bracket_ipi]
      exact hi
  | gain hp hturn =>
    rename_i c want
    cases want with
    | start => exact hi
    | enter =>
      show (St.bracket _ c (· + 1)).ipi d = true
      rw [bracket_ipi]
      exact hi
    | attach depth =>
      simp only [St.klockGain]
      split
      · exact hi
      · exact hi
  | poll hp =>
    rename_i c want
    have hd : d ≠ c := by
      rintro rfl
      exact hpoll rfl
    exact (Function.update_of_ne hd ..).trans hi
  | leave hp hopen =>
    unfold St.klockLeave
    dsimp only
    split
    · show (St.bracket _ _ _).ipi d = true
      rw [bracket_ipi]
      exact hi
    · rw [bracket_ipi]
      exact hi
  | passBooked hp hopen helse hnext hisr =>
    rw [switchBooked_eq]
    exact hi
  | spanEnd hp =>
    rename_i c kind
    by_cases hd : d = c
    · subst hd
      exact endSpan_ipi_self (Or.inl hi)
    · rw [endSpan_ipi_of_ne hd, hi]
      rfl
  | doorbell hp hisr hopen hipi =>
    rename_i c
    have hd : d ≠ c := by
      rintro rfl
      exact hbell rfl
    exact (Function.update_of_ne hd ..).trans hi
  | take hp =>
    unfold St.takeFrom
    dsimp only
    split
    · exact hi
    · exact hi
  | start | seat | passStay | passNow | stage | reschedSelf | switchUnlock | interrupt | taken | bootTake | isrReturn
    | isrSwitch | build => exact hi

/-- The acts that touch no word and no note. -/
def Act.Quiet : Act n T → Prop
  | .seat .. | .pass .. | .stage .. | .reschedSelf _ | .spanEnd _ | .take _ | .bootTake .. => False
  | _ => True

theorem quiet_same (hs : s.step a = some s') (hq : a.Quiet) (d : Fin n) : Same (s.core d) (s'.core d) := by
  cases step_does hs with
  | start hp => exact acquire_same d
  | enter hp => exact enter_same d
  | gain hp hturn => exact gain_same d
  | poll hp => exact .rfl
  | leave hp hopen => exact leave_same d
  | switchUnlock hp =>
    rename_i c
    have hset : Same (s.core d) ((s.setCore c { s.core c with onCpu := (s.core c).current }).core d) :=
      update_same (by exact ⟨rfl, rfl, rfl, rfl⟩) d
    exact hset.trans (drop_same d)
  | interrupt hp hisr hopen => exact update_same (by exact ⟨rfl, rfl, rfl, rfl⟩) d
  | doorbell hp hisr hopen hipi => exact update_same (by exact ⟨rfl, rfl, rfl, rfl⟩) d
  | isrReturn hp hisr hpass hbooked => exact update_same (by exact ⟨rfl, rfl, rfl, rfl⟩) d
  | isrSwitch hp hisr hpass hbooked hon => exact update_same (by exact ⟨rfl, rfl, rfl, rfl⟩) d
  | build hfree => exact .rfl
  | seat | passStay | passBooked | passNow | stage | reschedSelf | spanEnd | take | taken | bootTake => exact hq.elim

/-! ### Counts -/

/-- What a step does to one core's two counts for another: an ask is added, or an ask is taken. -/
def Counts (s s' : St n T) (d i : Fin n) : Prop :=
  (s.core d).asked i ≤ (s'.core d).asked i ∧
    ((s'.core d).took i = (s.core d).took i ∨ (s'.core d).took i = (s.core i).asked d)

omit [DecidableEq T] in
theorem Same.counts (h : Same (s.core d) (s'.core d)) : Counts s s' d i :=
  ⟨by rw [h.asked], Or.inl (by rw [h.took])⟩

omit [DecidableEq T] in
theorem counts_update (hcore : s'.core = Function.update s.core c k) (hasked : ∀ i, (s.core c).asked i ≤ k.asked i)
    (htook : ∀ i, k.took i = (s.core c).took i ∨ k.took i = (s.core i).asked c) : Counts s s' d i := by
  unfold Counts
  rw [hcore]
  by_cases hd : d = c
  · subst hd
    rw [Function.update_self]
    exact ⟨hasked i, htook i⟩
  · rw [Function.update_of_ne hd]
    exact ⟨le_rfl, Or.inl rfl⟩

omit [DecidableEq T] in
theorem took_update {j : Fin n} (x : Fin n) : Function.update (s.core c).took j ((s.core j).asked c) x = (s.core c).took x ∨
    Function.update (s.core c).took j ((s.core j).asked c) x = (s.core x).asked c := by
  by_cases hx : x = j
  · subst hx
    exact Or.inr (Function.update_self ..)
  · exact Or.inl (Function.update_of_ne hx ..)

omit [DecidableEq T] in
theorem counts_passOwed {passOwed : Bool} {current onCpu : Option T}
    (h : Same ((s.setCore c { s.core c with passOwed := passOwed, current := current, onCpu := onCpu }).core d)
      (s'.core d)) : Counts s s' d i := by
  have hset : Counts s (s.setCore c { s.core c with passOwed := passOwed, current := current, onCpu := onCpu }) d i :=
    counts_update rfl (fun _ => le_rfl) fun _ => Or.inl rfl
  refine ⟨?_, ?_⟩
  · rw [h.asked]
    exact hset.1
  · rw [h.took]
    exact hset.2

theorem counts_step (hs : s.step a = some s') (d i : Fin n) : Counts s s' d i := by
  cases step_does hs with
  | seat hp helse => exact counts_passOwed (drop_same d)
  | passStay hp hopen => exact counts_passOwed .rfl
  | passBooked hp hopen helse hne hisr =>
    rw [switchBooked_eq]
    exact counts_passOwed (update_same (by exact ⟨rfl, rfl, rfl, rfl⟩) d)
  | passNow hp hopen helse hne hisr hon => exact counts_passOwed (switchNow_same d)
  | stage hp => exact counts_update rfl (fun _ => le_rfl) fun _ => Or.inl rfl
  | reschedSelf hp =>
    rename_i c
    refine counts_update rfl (fun j => ?_) fun _ => Or.inl rfl
    show (s.core c).asked j ≤ Function.update (s.core c).asked c ((s.core c).asked c + 1) j
    by_cases hj : j = c
    · rw [hj, Function.update_self]
      exact Nat.le_succ _
    · rw [Function.update_of_ne hj]
  | spanEnd hp =>
    rename_i c kind
    by_cases hd : d = c
    · subst hd
      obtain ⟨hasked, htook, -⟩ := endSpan_words s d kind
      refine ⟨?_, Or.inl (by rw [htook])⟩
      rw [hasked, flush_asked]
      split
      · exact Nat.le_succ _
      · exact le_rfl
    · refine Same.counts ?_
      rw [endSpan_core_of_ne hd]
      exact .rfl
  | take hp =>
    rename_i c j rest stood
    unfold St.takeFrom
    dsimp only
    split
    · exact counts_update rfl (fun _ => le_rfl) fun x => took_update x
    · exact Same.counts (update_same (by exact ⟨rfl, rfl, rfl, rfl⟩) d)
  | taken hp => exact counts_update rfl (fun _ => le_rfl) fun _ => Or.inl rfl
  | bootTake hp hneq => exact counts_update rfl (fun _ => le_rfl) fun x => took_update x
  | start | enter | gain | poll | leave | switchUnlock | interrupt | doorbell | isrReturn | isrSwitch | build =>
    exact (quiet_same hs trivial d).counts

/-- Nothing is taken that was not asked. -/
def Counted (s : St n T) : Prop := ∀ d i, (s.core d).took i ≤ (s.core i).asked d

theorem counted_step (h : Counted s) (hs : s.step a = some s') : Counted s' := by
  intro d i
  have hle := (counts_step hs i d).1
  rcases (counts_step hs d i).2 with ht | ht
  · rw [ht]
    exact (h d i).trans hle
  · rw [ht]
    exact hle

theorem Reachable.counted (h : Reachable s) : Counted s := by
  induction h with
  | init => exact fun _ _ => le_rfl
  | step _ hs ih => exact counted_step ih hs

end Klock
end KickOS
