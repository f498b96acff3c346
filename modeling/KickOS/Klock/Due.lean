import KickOS.Klock.Request

/-! Reschedules asked for while the lock is held.

A request for a core is staged in the asker's row, or counted in the asker's word for it, or taken with its pass not
made yet. A word is read modulo 2^32, so what stands is read off two words only while fewer than 2^32 asks do. -/

namespace KickOS
namespace Klock

open Lib

variable {n : Nat} {T : Type} [DecidableEq T] {s s' : St n T} {c d i t : Fin n} {a : Act n T} {k k' : Core n T}

/-! ### A request on its way -/

/-- Fewer than 2^32 asks of a core stand for `t`. -/
def Below (s : St n T) (t : Fin n) : Prop := ∀ i, (s.core i).asked t < (s.core t).took i + word

/-- The test of `resched_owed_on` for one asker. -/
def Differ (s : St n T) (i t : Fin n) : Prop := (s.core i).asked t % word ≠ (s.core t).took i % word

omit [DecidableEq T] in
theorem differ_iff (hc : Counted s) (hb : Below s t) : Differ s i t ↔ (s.core t).took i < (s.core i).asked t := by
  have hle := hc t i
  have hlt := hb i
  unfold Differ word at *
  omega

/-- The core still has its span's end to make, which asks for what it staged. -/
def Core.Flushes (k : Core n T) : Prop := (k.depth ≠ 0 ∨ k.owed ≠ 0) ∨ ∃ kind, k.phase = .spanEnd kind

/-- A span's end is ahead of the core that raises its doorbell again, or `sched::start` its pick. -/
def Core.Raises (k : Core n T) : Prop :=
  match k.phase with
  | .acquire _ | .starting | .unlocking => True
  | .run => k.depth ≠ 0 ∨ k.owed ≠ 0
  | .spanEnd kind => kind ≠ .start
  | .boot | .taking .. => False

/-- The act asks for a reschedule of `t`. -/
def Act.Notes (a : Act n T) (t : Fin n) : Prop := (∃ i, i ≠ t ∧ a = .stage i t) ∨ a = .reschedSelf t

/-- The act is a scheduling pass of `t`. -/
def Act.Passes (a : Act n T) (t : Fin n) : Prop := (∃ next, a = .pass t next) ∨ ∃ first, a = .seat t first

/-- A pass of `t` is owed: staged with a flush to come, asked with a doorbell or a raise to come, found, or taken. -/
inductive Due (s : St n T) (t : Fin n) : Prop
  | staged (i : Fin n) (hne : i ≠ t) (hraise : (s.core i).raise t = true) (hflush : (s.core i).Flushes)
  | asked (i : Fin n) (hdiffer : Differ s i t)
    (hahead : s.ipi t = true ∨ (s.core t).Raises ∨ ∃ rest stood, (s.core t).phase = .taking rest stood ∧ i ∈ rest)
  | found (rest : List (Fin n)) (hp : (s.core t).phase = .taking rest true)
  | taken (hpass : (s.core t).passOwed = true)

theorem holding_step (h : Inv s) (hs : s.step a = some s') (hhold : s.lock.holding i = true) :
    s'.lock.holding i = true ∨ ∃ kind, (s'.core i).phase = .spanEnd kind := by
  rcases lock_step h hs with hl | ⟨c, -, hl | ⟨-, hl⟩ | ⟨-, hl, hend⟩⟩
  · exact Or.inl (hl ▸ hhold)
  · exact Or.inl (by rw [hl]; exact hhold)
  · by_cases hi : i = c
    · subst hi
      exact Or.inl (by rw [hl, Ticket.gain_holding_self])
    · exact Or.inl (by rw [hl, Ticket.gain_holding_of_ne hi]; exact hhold)
  · by_cases hi : i = c
    · subst hi
      exact Or.inr hend
    · exact Or.inl (by rw [hl, Ticket.release_holding_of_ne hi]; exact hhold)

def Act.At : Act n T → Phase n → Prop
  | .start _ | .bootTake .. => (· = .boot)
  | .seat .. => (· = .starting)
  | .gain _ | .poll _ => fun p => ∃ want, p = .acquire want
  | .stage .. | .reschedSelf _ => fun p => p = .starting ∨ p = .run
  | .switchUnlock _ => (· = .unlocking)
  | .spanEnd _ => fun p => ∃ kind, p = .spanEnd kind
  | .take _ => fun p => ∃ rest stood, p = .taking rest stood
  | _ => (· = .run)

theorem at_step (hs : s.step a = some s') (hc : a.core = some c) : a.At (s.core c).phase := by
  cases step_does hs with
  | stage hp =>
    obtain rfl := Option.some.inj hc
    exact hp.imp id And.left
  | reschedSelf hp =>
    obtain rfl := Option.some.inj hc
    exact hp.imp id And.left
  | gain hp | poll hp | spanEnd hp =>
    obtain rfl := Option.some.inj hc
    exact ⟨_, hp⟩
  | take hp | taken hp =>
    obtain rfl := Option.some.inj hc
    exact ⟨_, _, hp⟩
  | start hp | seat hp | enter hp | leave hp | passStay hp | passBooked hp | passNow hp | switchUnlock hp
  | interrupt hp | doorbell hp
  | bootTake hp | isrReturn hp | isrSwitch hp =>
    obtain rfl := Option.some.inj hc
    exact hp
  | build => cases hc

theorem raise_kept (hs : s.step a = some s') (hend : a ≠ .spanEnd i) (hr : (s.core i).raise t = true) :
    (s'.core i).raise t = true := by
  by_cases hi : a.core = some i
  · cases step_does hs with
    | seat hp helse =>
      obtain rfl := Option.some.inj hi
      rw [(drop_same _).raise, setCore_core_self]
      exact hr
    | passStay hp hopen =>
      obtain rfl := Option.some.inj hi
      rw [setCore_core_self]
      exact hr
    | passBooked hp hopen helse hne hisr =>
      obtain rfl := Option.some.inj hi
      rw [switchBooked_eq, setCore_core_self, setCore_core_self]
      exact hr
    | passNow hp hopen helse hne hisr hon =>
      obtain rfl := Option.some.inj hi
      rw [(switchNow_same _).raise, setCore_core_self]
      exact hr
    | stage hp =>
      rename_i c peer
      obtain rfl := Option.some.inj hi
      rw [setCore_core_self]
      show Function.update (s.core c).raise peer true t = true
      by_cases ht : t = peer
      · rw [ht, Function.update_self]
      · rw [Function.update_of_ne ht]
        exact hr
    | reschedSelf hp =>
      obtain rfl := Option.some.inj hi
      rw [setCore_core_self]
      exact hr
    | spanEnd hp =>
      obtain rfl := Option.some.inj hi
      exact absurd rfl hend
    | take hp =>
      obtain rfl := Option.some.inj hi
      unfold St.takeFrom
      dsimp only
      split
      · rw [setCore_core_self]
        exact hr
      · rw [setCore_core_self]
        exact hr
    | taken hp =>
      obtain rfl := Option.some.inj hi
      rw [setCore_core_self]
      exact hr
    | bootTake hp hneq =>
      obtain rfl := Option.some.inj hi
      rw [setCore_core_self]
      exact hr
    | start | enter | gain | poll | leave | switchUnlock | interrupt | doorbell | isrReturn | isrSwitch | build =>
      rw [(quiet_same hs trivial i).raise]
      exact hr
  · rw [core_of_ne hs hi]
    exact hr

theorem staged_step (h : Inv s) (hs : s.step a = some s') (hne : i ≠ t) (hr : (s.core i).raise t = true)
    (hf : (s.core i).Flushes) :
    ((s'.core i).raise t = true ∧ (s'.core i).Flushes) ∨
      ((s.core i).asked t < (s'.core i).asked t ∧ s'.ipi t = true) := by
  by_cases hend : a = .spanEnd i
  · subst hend
    right
    cases step_does hs with
    | @spanEnd _ kind hp =>
      refine ⟨?_, ?_⟩
      · rw [(endSpan_words s i kind).1, flush_asked, if_pos (by simp [hr, hne.symm])]
        exact Nat.lt_succ_self _
      · rw [endSpan_ipi_of_ne hne.symm, hr, Bool.or_true]
  · refine Or.inl ⟨raise_kept hs hend hr, ?_⟩
    by_cases hi : a.core = some i
    · rcases hf with hrow | ⟨kind, hp⟩
      · rcases holding_step h hs (h.holding hrow) with hhold | hkind
        · exact Or.inl (((inv_step h hs).cores i).holds.mp hhold)
        · exact Or.inr hkind
      · -- a core at its span's end makes no other step
        have hat := at_step hs hi
        rw [hp] at hat
        cases a with
        | spanEnd c =>
          obtain rfl := Option.some.inj hi
          exact absurd rfl hend
        | stage c peer => rcases hat with hat | hat <;> cases hat
        | reschedSelf c => rcases hat with hat | hat <;> cases hat
        | gain c =>
          obtain ⟨want, hat⟩ := hat
          cases hat
        | poll c =>
          obtain ⟨want, hat⟩ := hat
          cases hat
        | take c =>
          obtain ⟨rest, stood, hat⟩ := hat
          cases hat
        | build u => cases hi
        | start | seat | enter | leave | pass | switchUnlock | interrupt | doorbell | bootTake | isrExit => cases hat
    · rw [core_of_ne hs hi]
      exact hf

theorem passOwed_kept (hs : s.step a = some s') (hnot : ¬ a.Passes t) (hp : (s.core t).passOwed = true) :
    (s'.core t).passOwed = true := by
  by_cases ht : a.core = some t
  · cases step_does hs with
    | seat =>
      obtain rfl := Option.some.inj ht
      exact absurd (Or.inr ⟨_, rfl⟩) hnot
    | passStay | passBooked | passNow =>
      obtain rfl := Option.some.inj ht
      exact absurd (Or.inl ⟨_, rfl⟩) hnot
    | stage | reschedSelf =>
      obtain rfl := Option.some.inj ht
      rw [setCore_core_self]
      exact hp
    | spanEnd =>
      obtain rfl := Option.some.inj ht
      rw [(endSpan_words ..).2.2]
      exact hp
    | take =>
      obtain rfl := Option.some.inj ht
      unfold St.takeFrom
      dsimp only
      split
      · rw [setCore_core_self]
        exact hp
      · rw [setCore_core_self]
        exact hp
    | taken =>
      obtain rfl := Option.some.inj ht
      rw [setCore_core_self]
      show ((s.core _).passOwed || _) = true
      rw [hp, Bool.true_or]
    | bootTake =>
      obtain rfl := Option.some.inj ht
      rw [setCore_core_self]
    | start | enter | gain | poll | leave | switchUnlock | interrupt | doorbell | isrReturn | isrSwitch | build =>
      rw [(quiet_same hs trivial t).passOwed]
      exact hp
  · rw [core_of_ne hs ht]
    exact hp

omit [DecidableEq T] in
/-- Where the row says that the lock is held, a core in its code has the end of its span ahead. -/
theorem raises_of_run (hp : k.phase = .run) (hrow : k.depth ≠ 0 ∨ k.owed ≠ 0) : k.Raises := by
  rw [Core.Raises, hp]
  exact hrow

theorem raises_of_held (h : Inv s) (hp : (s.core c).phase = .starting ∨
    ((s.core c).phase = .run ∧ (s.core c).opened s.brackets ≠ 0)) : (s.core c).Raises := by
  rcases hp with hp | ⟨hp, hopen⟩
  · rw [Core.Raises, hp]
    trivial
  · exact raises_of_run hp (Or.inl (by rw [(h.running hp).1]; exact hopen))

/-- A core in its code with no bracket open and no switch booked has nothing ahead but its doorbell. -/
theorem not_raises (h : Inv s) (hp : (s.core c).phase = .run) (hopen : (s.core c).opened s.brackets = 0)
    (hbooked : (s.core c).booked = false) : ¬ (s.core c).Raises := by
  obtain ⟨hdepth, howed, -⟩ := h.running hp
  rw [Core.Raises, hp]
  rintro (hd | ho)
  · exact hd (hdepth.trans hopen)
  · rw [howed, hbooked] at ho
    exact ho rfl

theorem bracket_row {f : Nat → Nat} : ((s.bracket c f).core d).phase = (s.core d).phase ∧
    ((s.bracket c f).core d).depth = (s.core d).depth ∧ ((s.bracket c f).core d).owed = (s.core d).owed := by
  unfold St.bracket
  split
  · by_cases hd : d = c
    · subst hd
      rw [setCore_core_self]
      exact ⟨rfl, rfl, rfl⟩
    · rw [setCore_core_of_ne hd]
      exact ⟨rfl, rfl, rfl⟩
  · split
    · exact ⟨rfl, rfl, rfl⟩
    · exact ⟨rfl, rfl, rfl⟩

theorem raises_enter : ((s.klockEnter c).core c).Raises ∨ (s.core c).phase ≠ .run := by
  by_cases hp : (s.core c).phase = .run
  · left
    unfold St.klockEnter
    split
    · rw [St.acquire, setCore_core_self]
      trivial
    · obtain ⟨hphase, hdepth, -⟩ := bracket_row (s := s.setCore c { s.core c with depth := (s.core c).depth + 1 })
          (c := c) (d := c) (f := (· + 1))
      rw [setCore_core_self] at hphase hdepth
      exact raises_of_run (hphase.trans hp) (Or.inl (by rw [hdepth]; exact Nat.succ_ne_zero _))
  · exact Or.inr hp

theorem raises_gain {want : Want} (h : Inv (s.klockGain c want)) : ((s.klockGain c want).core c).Raises := by
  have hrow := (h.cores c).holds.mp (by rw [klockGain_lock, Ticket.gain_holding_self])
  cases want with
  | start =>
    simp only [St.klockGain, setCore_core_self]
    trivial
  | enter =>
    refine raises_of_run ?_ hrow
    simp only [St.klockGain]
    rw [bracket_row.1, setCore_core_self]
  | attach depth =>
    refine raises_of_run ?_ hrow
    simp only [St.klockGain]
    split
    · exact congrArg Core.phase setCore_core_self
    · rw [setCore_core_self]

theorem raises_leave (hp : (s.core c).phase = .run) : ((s.klockLeave c).core c).Raises := by
  unfold St.klockLeave
  dsimp only
  split
  · rw [setCore_core_self]
    exact fun hk => by cases hk
  · rename_i hmore
    obtain ⟨hphase, hdepth, howed⟩ := bracket_row (s := s.setCore c { s.core c with depth := (s.core c).depth - 1 })
        (c := c) (d := c) (f := (· - 1))
    rw [setCore_core_self] at hphase hdepth howed
    refine raises_of_run (hphase.trans hp) ?_
    rw [hdepth, howed]
    by_contra hno
    exact hmore (by simpa [not_or] using hno)

omit [DecidableEq T] in
theorem take_found {rest : List (Fin n)} {stood : Bool} (hdiffer : Differ s i t) :
    ((s.takeFrom t i rest stood).core t).phase = .taking rest true := by
  unfold St.takeFrom
  dsimp only
  split
  · rw [setCore_core_self]
  · rename_i hsame
    exact absurd hdiffer hsame

omit [DecidableEq T] in
theorem takeFrom_phase (s : St n T) (t j : Fin n) (rest : List (Fin n)) (stood : Bool) :
    ∃ stood', ((s.takeFrom t j rest stood).core t).phase = .taking rest stood' ∧ (stood = true → stood' = true) := by
  unfold St.takeFrom
  dsimp only
  split
  · exact ⟨true, by rw [setCore_core_self], fun _ => rfl⟩
  · exact ⟨stood, by rw [setCore_core_self], id⟩

omit [DecidableEq T] in
/-- With nothing ahead in the core's code, its doorbell is raised. -/
theorem bell_of_ahead (hr : ¬ (s.core t).Raises) (hp : ∀ rest stood, (s.core t).phase ≠ .taking rest stood)
    (hahead : s.ipi t = true ∨ (s.core t).Raises ∨ ∃ rest stood, (s.core t).phase = .taking rest stood ∧ i ∈ rest) :
    s.ipi t = true := by
  rcases hahead with hipi | hraises | ⟨rest, stood, htaking, -⟩
  · exact hipi
  · exact absurd hraises hr
  · exact absurd htaking (hp rest stood)

omit [DecidableEq T] in
theorem takeFrom_took {j : Fin n} {rest : List (Fin n)} {stood : Bool} (hij : i ≠ j) :
    ((s.takeFrom t j rest stood).core t).took i = (s.core t).took i := by
  unfold St.takeFrom
  dsimp only
  split
  · rw [setCore_core_self]
    exact Function.update_of_ne hij ..
  · rw [setCore_core_self]

omit [DecidableEq T] in
/-- The own take of one core: it finds the ask, or passes another's. -/
theorem asked_take {j : Fin n} {rest : List (Fin n)} {stood : Bool} (hp : (s.core t).phase = .taking (j :: rest) stood)
    (hkeep : ((s.takeFrom t j rest stood).core t).took i = (s.core t).took i → Differ (s.takeFrom t j rest stood) i t)
    (hipi : s.ipi t = true → (s.takeFrom t j rest stood).ipi t = true) (hdiffer : Differ s i t)
    (hahead : s.ipi t = true ∨ (s.core t).Raises ∨ ∃ rest stood, (s.core t).phase = .taking rest stood ∧ i ∈ rest) :
    Due (s.takeFrom t j rest stood) t := by
  by_cases hij : i = j
  · subst hij
    exact .found rest (take_found hdiffer)
  · obtain ⟨stood', hphase, -⟩ := takeFrom_phase s t j rest stood
    refine .asked i (hkeep (takeFrom_took hij)) ?_
    rcases hahead with hbell | hraises | ⟨rest', stood'', htaking, hmem⟩
    · exact Or.inl (hipi hbell)
    · rw [Core.Raises, hp] at hraises
      exact hraises.elim
    · rw [hp] at htaking
      cases htaking
      exact Or.inr (Or.inr ⟨rest, stood', hphase, (List.mem_cons.mp hmem).resolve_left hij⟩)

/-- An ask that stands goes on standing, with its doorbell or a raise to come, through a step of its own core. -/
theorem asked_own (h : Inv s) (hc : Counted s) (hb : Below s t) (hb' : Below s' t) (hs : s.step a = some s')
    (hnot : ¬ a.Passes t) (ht : a.core = some t) (hdiffer : Differ s i t)
    (hahead : s.ipi t = true ∨ (s.core t).Raises ∨ ∃ rest stood, (s.core t).phase = .taking rest stood ∧ i ∈ rest) :
    Due s' t := by
  have hkeep : (s'.core t).took i = (s.core t).took i → Differ s' i t := fun htook => by
    refine (differ_iff (counted_step hc hs) hb').mpr ?_
    rw [htook]
    exact lt_of_lt_of_le ((differ_iff hc hb).mp hdiffer) (counts_step hs i t).1
  have hinv := inv_step h hs
  cases step_does hs with
  | start hp =>
    obtain rfl := Option.some.inj ht
    refine .asked i (hkeep (by rw [(quiet_same hs trivial _).took])) (Or.inr (Or.inl ?_))
    rw [St.acquire, setCore_core_self]
    trivial
  | enter hp =>
    obtain rfl := Option.some.inj ht
    refine .asked i (hkeep (by rw [(quiet_same hs trivial _).took])) (Or.inr (Or.inl ?_))
    exact raises_enter.resolve_right (fun hne => hne hp)
  | gain hp hturn =>
    obtain rfl := Option.some.inj ht
    exact .asked i (hkeep (by rw [(quiet_same hs trivial _).took])) (Or.inr (Or.inl (raises_gain hinv)))
  | poll hp =>
    obtain rfl := Option.some.inj ht
    refine .asked i (hkeep rfl) (Or.inr (Or.inl ?_))
    show (s.core _).Raises
    rw [Core.Raises, hp]
    trivial
  | leave hp hopen =>
    obtain rfl := Option.some.inj ht
    exact .asked i (hkeep (by rw [(quiet_same hs trivial _).took])) (Or.inr (Or.inl (raises_leave hp)))
  | stage hp =>
    obtain rfl := Option.some.inj ht
    refine .asked i (hkeep (by rw [setCore_core_self])) (Or.inr (Or.inl ?_))
    rw [setCore_core_self]
    exact raises_of_held h hp
  | reschedSelf hp =>
    obtain rfl := Option.some.inj ht
    refine .asked i (hkeep (by rw [setCore_core_self])) (Or.inr (Or.inl ?_))
    rw [setCore_core_self]
    exact raises_of_held h hp
  | switchUnlock hp =>
    obtain rfl := Option.some.inj ht
    refine .asked i (hkeep (by rw [(quiet_same hs trivial _).took])) (Or.inr (Or.inl ?_))
    rw [St.drop, setCore_core_self]
    exact fun hk => by cases hk
  | @spanEnd c kind hp =>
    obtain rfl := Option.some.inj ht
    refine .asked i (hkeep (by rw [(endSpan_words ..).2.1])) (Or.inl (endSpan_ipi_self ?_))
    by_cases hkind : kind = .start
    · refine Or.inl (bell_of_ahead ?_ (fun rest stood hp' => ?_) hahead)
      · rw [Core.Raises, hp]
        exact fun hne => hne hkind
      · rw [hp] at hp'
        cases hp'
    · refine Or.inr ⟨hkind, ?_⟩
      rw [St.reschedOwedOn, List.any_eq_true]
      exact ⟨i, List.mem_finRange i, decide_eq_true hdiffer⟩
  | interrupt hp hisr hopen =>
    obtain rfl := Option.some.inj ht
    obtain ⟨-, -, u, hu⟩ := h.running hp
    have hfree : ∀ rest stood, (s.core _).phase ≠ .taking rest stood := fun rest stood hp' => by
      rw [hp] at hp'
      cases hp'
    have hbell := bell_of_ahead (not_raises h hp hopen (hu.booked hisr)) hfree hahead
    exact .asked i (hkeep (by rw [(quiet_same hs trivial _).took])) (Or.inl hbell)
  | doorbell hp hisr hopen hipi =>
    obtain rfl := Option.some.inj ht
    refine .asked i (hkeep (by rw [(quiet_same hs trivial _).took]))
      (Or.inr (Or.inr ⟨List.finRange n, false, ?_, List.mem_finRange i⟩))
    rw [setCore_core_self]
  | @take c j rest stood hp =>
    obtain rfl := Option.some.inj ht
    exact asked_take hp hkeep (ipi_kept hs (by simp) (by simp)) hdiffer hahead
  | @taken c stood hp =>
    obtain rfl := Option.some.inj ht
    refine .asked i (hkeep (by rw [setCore_core_self])) (Or.inl ?_)
    rcases hahead with hipi | hraises | ⟨rest', stood'', htaking, hmem⟩
    · exact hipi
    · rw [Core.Raises, hp] at hraises
      exact hraises.elim
    · rw [hp] at htaking
      cases htaking
      cases hmem
  | bootTake hp hneq =>
    obtain rfl := Option.some.inj ht
    refine .taken ?_
    rw [setCore_core_self]
  | isrReturn hp hisr hpass hbooked =>
    obtain rfl := Option.some.inj ht
    have hfree : ∀ rest stood, (s.core _).phase ≠ .taking rest stood := fun rest stood hp' => by
      rw [hp] at hp'
      cases hp'
    have hbell := bell_of_ahead (not_raises h hp (by rw [Core.opened, hisr]) hbooked) hfree hahead
    exact .asked i (hkeep (by rw [(quiet_same hs trivial _).took])) (Or.inl hbell)
  | isrSwitch hp hisr hpass hbooked hon =>
    obtain rfl := Option.some.inj ht
    refine .asked i (hkeep (by rw [(quiet_same hs trivial _).took])) (Or.inr (Or.inl ?_))
    rw [setCore_core_self]
    trivial
  | seat =>
    obtain rfl := Option.some.inj ht
    exact absurd (Or.inr ⟨_, rfl⟩) hnot
  | passStay | passBooked | passNow =>
    obtain rfl := Option.some.inj ht
    exact absurd (Or.inl ⟨_, rfl⟩) hnot
  | build => cases ht

theorem found_own {rest : List (Fin n)} (hs : s.step a = some s') (ht : a.core = some t)
    (hp : (s.core t).phase = .taking rest true) : Due s' t := by
  have hat := at_step hs ht
  rw [hp] at hat
  cases step_does hs with
  | @take c j rest' stood hp' =>
    obtain rfl := Option.some.inj ht
    rw [hp] at hp'
    cases hp'
    obtain ⟨stood', hphase, hstood⟩ := takeFrom_phase s c j rest' true
    rw [hstood rfl] at hphase
    exact .found _ hphase
  | taken hp' =>
    obtain rfl := Option.some.inj ht
    rw [hp] at hp'
    cases hp'
    refine .taken ?_
    rw [setCore_core_self]
    exact Bool.or_true _
  | stage | reschedSelf => rcases hat with hat | hat <;> cases hat
  | gain | poll | spanEnd =>
    obtain ⟨_, hat⟩ := hat
    cases hat
  | build => cases ht
  | start | seat | enter | leave | passStay | passBooked | passNow | switchUnlock | interrupt | doorbell | bootTake
    | isrReturn | isrSwitch => cases hat

theorem due_noted (h : Inv s) (hc : Counted s) (hb' : Below s' t) (hs : s.step a = some s') (hn : a.Notes t) : Due s' t := by
  have hc' := counted_step hc hs
  rcases hn with ⟨i, hne, rfl⟩ | rfl
  · cases step_does hs with
    | stage hp =>
      refine .staged i hne ?_ (Or.inl (Or.inl ?_))
      · rw [setCore_core_self]
        exact Function.update_self ..
      · rw [setCore_core_self]
        show (s.core i).depth ≠ 0
        rcases hp with hp | ⟨hp, hopen⟩
        · have hshape := (h.cores i).shape
          rw [Core.Shape, hp] at hshape
          rw [hshape.2.1]
          exact Nat.one_ne_zero
        · rw [(h.running hp).1]
          exact hopen
  · cases step_does hs with
    | reschedSelf hp =>
      refine .asked t ((differ_iff hc' hb').mpr ?_) (Or.inr (Or.inl ?_))
      · rw [setCore_core_self]
        show (s.core t).took t < Function.update (s.core t).asked t ((s.core t).asked t + 1) t
        rw [Function.update_self]
        exact Nat.lt_succ_of_le (hc t t)
      · rw [setCore_core_self]
        exact raises_of_held h hp

theorem due_step (h : Inv s) (hc : Counted s) (hb : Below s t) (hb' : Below s' t) (hs : s.step a = some s')
    (hnot : ¬ a.Passes t) (hd : Due s t) : Due s' t := by
  have hc' := counted_step hc hs
  cases hd with
  | staged i hne hraise hflush =>
    rcases staged_step h hs hne hraise hflush with ⟨hr, hf⟩ | ⟨hlt, hipi⟩
    · exact .staged i hne hr hf
    · refine .asked i ((differ_iff hc' hb').mpr (lt_of_le_of_lt ?_ hlt)) (Or.inl hipi)
      rcases (counts_step hs t i).2 with htook | htook
      · rw [htook]
        exact hc t i
      · rw [htook]
  | taken hpass => exact .taken (passOwed_kept hs hnot hpass)
  | found rest hp =>
    by_cases ht : a.core = some t
    · exact found_own hs ht hp
    · refine .found rest ?_
      rw [core_of_ne hs ht]
      exact hp
  | asked i hdiffer hahead =>
    by_cases ht : a.core = some t
    · exact asked_own h hc hb hb' hs hnot ht hdiffer hahead
    · have hcore := core_of_ne hs ht
      have hlt : (s'.core t).took i < (s'.core i).asked t := by
        rw [hcore]
        exact lt_of_lt_of_le ((differ_iff hc hb).mp hdiffer) (counts_step hs i t).1
      refine .asked i ((differ_iff hc' hb').mpr hlt) ?_
      rw [hcore]
      rcases hahead with hipi | hahead
      · refine Or.inl (ipi_kept hs ?_ ?_ hipi)
        · rintro rfl
          exact ht rfl
        · rintro rfl
          exact ht rfl
      · exact Or.inr hahead

theorem due_run (h : Inv s) (hc : Counted s) (hb : Below s t) (hd : Due s t)
    (hr : Run (fun b v => ¬ b.Passes t ∧ Below v t) s s') : Due s' t := by
  have hall : Inv s' ∧ Counted s' ∧ Below s' t ∧ Due s' t := by
    induction hr with
    | refl => exact ⟨h, hc, hb, hd⟩
    | step _ hs hok ih =>
      obtain ⟨hi, hc, hb, hd⟩ := ih
      exact ⟨inv_step hi hs, counted_step hc hs, hok.2, due_step hi hc hb hok.2 hs hok.1 hd⟩
  exact hall.2.2.2

/-! ### Nesting -/

/-- In every state a run reaches: one core holds the lock, exactly while its row says so; only its holder releases it; a
thread a core leaves is gone on with at the depth it was left with; and a reschedule noted under the lock stays owed
until a pass of its core, while fewer than 2^32 asks stand. -/
theorem kernel_lock_nests (hr : Reachable s) :
    (∀ c d, s.lock.holding c = true → s.lock.holding d = true → c = d) ∧
    (∀ c, s.lock.holding c = true ↔ (s.core c).depth ≠ 0 ∨ (s.core c).owed ≠ 0) ∧
    (∀ a s', s.step a = some s' → s'.lock.serving ≠ s.lock.serving →
      ∃ c, a.core = some c ∧ s.lock.holding c = true ∧ s'.lock = s.lock.release c) ∧
    (∀ a s' t, s.step a = some s' → s.frame t = .live → s'.frame t ≠ .live → ∃ c, a.core = some c ∧ (s.core c).onCpu = some t ∧
      ∀ u, Run (fun b _ => b ≠ .build t) s' u → u.frame t = s'.frame t ∨
        ∃ v w b e, Run (fun b _ => b ≠ .build t) s' v ∧ v.step b = some w ∧ Run (fun b _ => b ≠ .build t) w u ∧ b.core = some e ∧
          v.frame t = s'.frame t ∧ w.frame t = .live ∧ (w.core e).phase = .run ∧ (w.core e).isr = none ∧
            (w.core e).onCpu = some t ∧
          (w.core e).depth = (s.core c).depth) ∧
    (∀ a s' t, s.step a = some s' → a.Notes t → Below s' t → ∀ u, Run (fun b v => ¬ b.Passes t ∧ Below v t) s' u → Due u t) := by
  have h := hr.inv
  refine ⟨fun c d hc hd => h.lock.unique hc hd, fun c => (h.cores c).holds,
    fun a s' hs hserving => released_by_holder h hs hserving, ?_, ?_⟩
  · intro a s' t hs hlive hsaved
    obtain ⟨c, hc, hon, hdepth⟩ := frame_saved h hs hlive hsaved
    refine ⟨c, hc, hon, fun u hu => ?_⟩
    rcases goes_on hu (inv_step h hs) hsaved with hk | ⟨v, w, b, e, hv, hb, hw, he, hkept, hg⟩
    · exact Or.inl hk
    · exact Or.inr ⟨v, w, b, e, hv, hb, hw, he, hkept, hg.live, hg.phase, hg.isr, hg.onCpu, hg.depth.trans hdepth⟩
  · intro a s' t hs hn hb u hu
    exact due_run (inv_step h hs) (counted_step hr.counted hs) hb (due_noted h hr.counted hb hs hn) hu

/-! ### A word that wraps -/

theorem boots {m : Nat} (first : T) (hr : Reachable s) (hlock : s.lock = ⟨m, m, fun _ => none, fun _ => false⟩)
    (hcore : s.core c = Core.initial n T) (hfresh : s.frame first = .fresh) (helse : s.elsewhere c first = false) :
    Reachable
      { s with
        lock := ⟨m + 1, m + 1, fun _ => none, fun _ => false⟩
        core := Function.update s.core c { Core.initial n T with phase := .run, current := some first, onCpu := some first }
        frame := Function.update s.frame first .live } := by
  obtain ⟨lock, core, frame, brackets, ipi⟩ := s
  dsimp only at hlock hcore hfresh
  subst hlock
  have hstart : Reachable _ := hr.step (a := .start c) (if_pos (by dsimp only; rw [hcore]; rfl))
  have hgain : Reachable (⟨⟨m + 1, m, Function.update (fun _ => none) c (some m), Function.update (fun _ => false) c true⟩,
      Function.update core c { Core.initial n T with phase := .starting, depth := 1 }, frame, brackets, ipi⟩ : St n T) := by
    refine hstart.step (a := .gain c) ?_
    simp [St.step, St.acquire, St.setCore, Ticket.draw, Ticket.turn, St.klockGain, Ticket.gain, hcore, Core.initial]
  have hseat : Reachable (⟨⟨m + 1, m + 1, fun _ => none, fun _ => false⟩,
      Function.update core c { Core.initial n T with phase := .spanEnd .start, current := some first, onCpu := some first },
      frame, brackets, ipi⟩ : St n T) := by
    refine hgain.step (a := .seat c first) ?_
    have helse' : (⟨⟨m + 1, m, Function.update (fun _ => none) c (some m), Function.update (fun _ => false) c true⟩,
        Function.update core c { Core.initial n T with phase := .starting, depth := 1 }, frame, brackets, ipi⟩ :
          St n T).elsewhere c first =
        false := by
      refine elsewhere_false_iff.mpr fun d hd => ?_
      have := elsewhere_false_iff.mp helse d hd
      simpa [St.has, Function.update_of_ne hd] using this
    simp [St.step, St.setCore, St.drop, Ticket.release, Core.initial]
    exact helse'
  refine hseat.step (a := .spanEnd c) ?_
  simp [St.step, St.endSpan, St.spanRaise, St.goOn, St.resume, St.flush, St.setCore, Core.initial, hfresh]

def core0 : Fin 2 := ⟨0, Nat.two_pos⟩

def core1 : Fin 2 := ⟨1, Nat.one_lt_two⟩

theorem core1_ne_core0 : core1 ≠ core0 := by decide

theorem eq_core0 : ∀ d : Fin 2, d ≠ core1 → d = core0 := by decide

/-- Two cores, each in its thread, with `k` asks of core 1 standing for core 0 and `m` spans of the lock made. -/
def asking (m k : Nat) : St 2 Bool where
  lock := ⟨m, m, fun _ => none, fun _ => false⟩
  core := fun d =>
    { Core.initial 2 Bool with
      phase := .run
      current := some (decide (d = core1))
      onCpu := some (decide (d = core1))
      asked := fun e => if d = core1 ∧ e = core0 then k else 0 }
  frame := fun _ => .live
  brackets := fun _ => 0
  ipi := fun d => decide (d = core0 ∧ 0 < k)

def askingHeld (m k : Nat) (raise : Fin 2 → Bool) : St 2 Bool :=
  { asking m k with
    lock := ((asking m k).lock.draw core1).gain core1
    core := Function.update (asking m k).core core1 { (asking m k).core core1 with depth := 1, raise := raise }
    brackets := Function.update (fun _ => 0) true 1 }

def askingLeft (m k : Nat) (raise : Fin 2 → Bool) : St 2 Bool :=
  { asking m k with
    lock := (((asking m k).lock.draw core1).gain core1).release core1
    core := Function.update (asking m k).core core1 { (asking m k).core core1 with phase := .spanEnd .leave, raise := raise } }

def forCore0 : Fin 2 → Bool := Function.update (fun _ => false) core0 true

theorem asking_reached : Reachable (asking 2 0) := by
  have hfirst : Reachable _ := boots (s := initial 2 Bool) (c := core0) false .init rfl rfl rfl rfl
  have hsecond : Reachable _ := boots (c := core1) true hfirst rfl rfl rfl rfl
  have hcore : Function.update (Function.update (initial 2 Bool).core core0
      { Core.initial 2 Bool with phase := .run, current := some false, onCpu := some false }) core1
      { Core.initial 2 Bool with phase := .run, current := some true, onCpu := some true } = (asking 2 0).core := by
    funext d
    by_cases hd : d = core1
    · subst hd
      simp [asking, Core.initial]
    · obtain rfl := eq_core0 d hd
      simp [asking, Core.initial, core1_ne_core0.symm]
  have hframe : Function.update (Function.update (initial 2 Bool).frame false .live) true .live = (asking 2 0).frame := by
    funext t
    cases t with
    | false => rfl
    | true => rfl
  have hipi : (initial 2 Bool).ipi = (asking 2 0).ipi := by
    funext d
    simp [asking, initial]
  have heq : asking 2 0 = ⟨(asking 2 0).lock, (asking 2 0).core, (asking 2 0).frame, (asking 2 0).brackets,
      (asking 2 0).ipi⟩ := rfl
  rw [heq, ← hcore, ← hframe, ← hipi]
  exact hsecond

theorem asking_enter (m k : Nat) : (asking m k).step (.enter core1) = some ((asking m k).acquire core1 .enter) := rfl

theorem asking_gain (m k : Nat) : ((asking m k).acquire core1 .enter).step (.gain core1) =
    some (askingHeld m k fun _ => false) := by
  simp [St.step, St.acquire, asking, St.setCore, Core.initial, Ticket.draw, Ticket.turn, St.klockGain, St.bracket,
    Ticket.gain, askingHeld]

theorem asking_stage (m k : Nat) : (askingHeld m k fun _ => false).step (.stage core1 core0) =
    some (askingHeld m k forCore0) := by
  simp [St.step, askingHeld, asking, St.setCore, Core.initial, Core.opened, forCore0]

theorem asking_leave (m k : Nat) (raise : Fin 2 → Bool) :
    (askingHeld m k raise).step (.leave core1) = some (askingLeft m k raise) := by
  simp [St.step, askingHeld, askingLeft, asking, St.setCore, Core.initial, Core.opened, St.klockLeave, St.bracket]

theorem asking_not_owed (m k : Nat) (raise : Fin 2 → Bool) : (askingLeft m k raise).reschedOwedOn core1 = false := by
  rw [St.reschedOwedOn, List.any_eq_false]
  intro i _
  by_cases hi : i = core1
  · subst hi
    simp [askingLeft, asking, Core.initial, core1_ne_core0]
  · simp [askingLeft, asking, Core.initial, hi]

theorem asking_end (m k : Nat) : (askingLeft m k forCore0).step (.spanEnd core1) = some (asking (m + 1) (k + 1)) := by
  have hraise : (askingLeft m k forCore0).spanRaise core1 .leave = (askingLeft m k forCore0).flush core1 := by
    rw [St.spanRaise, flush_reschedOwedOn, asking_not_owed]
    rfl
  have hstep : (askingLeft m k forCore0).step (.spanEnd core1) =
      some (((askingLeft m k forCore0).flush core1).goOn core1 .leave) := by
    rw [← hraise]
    rfl
  rw [hstep]
  simp only [askingLeft, asking, St.setCore, Core.initial, St.goOn, St.flush, Ticket.draw, Ticket.gain,
    Ticket.release, Function.update_self, Function.update_idem, Option.some.injEq, St.mk.injEq]
  refine ⟨?_, ?_, trivial, trivial, ?_⟩
  · simp
  · funext d
    by_cases hd : d = core1
    · subst hd
      simp only [Function.update_self, Core.mk.injEq, true_and, and_true, decide_true]
      funext e
      by_cases he : e = core0
      · subst he
        simp [forCore0, core1_ne_core0.symm]
      · simp [forCore0, he]
    · simp [hd]
  · funext d
    by_cases hd : d = core0
    · subst hd
      simp [forCore0, core1_ne_core0.symm]
    · simp [forCore0, hd]

theorem no_pass_of_core1 {b : Act 2 Bool} (hb : b.core = some core1) : ¬ b.Passes core0 := by
  rintro (⟨next, rfl⟩ | ⟨first, rfl⟩)
  · exact core1_ne_core0 (Option.some.inj hb).symm
  · exact core1_ne_core0 (Option.some.inj hb).symm

theorem asking_cycle (m k : Nat) : Run (fun b _ => ¬ b.Passes core0) (asking m k) (asking (m + 1) (k + 1)) := by
  have hheld : Run (fun b _ => ¬ b.Passes core0) (asking m k) (askingHeld m k fun _ => false) :=
    (Run.refl.step (asking_enter m k) (no_pass_of_core1 rfl)).step (asking_gain m k) (no_pass_of_core1 rfl)
  have hleft : Run (fun b _ => ¬ b.Passes core0) (asking m k) (askingLeft m k forCore0) :=
    (hheld.step (asking_stage m k) (no_pass_of_core1 rfl)).step (asking_leave m k _) (no_pass_of_core1 rfl)
  exact hleft.step (asking_end m k) (no_pass_of_core1 rfl)

theorem asking_cycles (m k j : Nat) : Run (fun b _ => ¬ b.Passes core0) (asking m k) (asking (m + j) (k + j)) := by
  induction j with
  | zero => exact .refl
  | succ j ih => exact ih.trans (asking_cycle (m + j) (k + j))

theorem asking_wrapped (m : Nat) : ¬ Due (asking m word) core0 := by
  intro hd
  cases hd with
  | staged i hne hraise hflush => cases hraise
  | asked i hdiffer hahead =>
    refine hdiffer ?_
    show (if i = core1 ∧ core0 = core0 then word else 0) % word = 0 % word
    split
    · rw [Nat.mod_self, Nat.zero_mod]
    · rfl
  | found rest hp => cases hp
  | taken hpass => cases hpass

/-- With 2^32 asks standing a core's two words are equal: the request is dropped with no pass taken or owed. -/
theorem wrapped_request_dropped : ∃ (s s' u : St 2 Bool) (a : Act 2 Bool) (t : Fin 2),
    Reachable s ∧ s.step a = some s' ∧ a.Notes t ∧ Run (fun b _ => ¬ b.Passes t) s' u ∧ ¬ Due u t := by
  have hheld : Reachable (askingHeld 2 0 fun _ => false) := (asking_reached.step (asking_enter 2 0)).step (asking_gain 2 0)
  have hno : ∀ {b : Act 2 Bool}, b.core = some core1 → ¬ b.Passes core0 := no_pass_of_core1
  have hfirst : Run (fun b _ => ¬ b.Passes core0) (askingHeld 2 0 forCore0) (asking 3 1) :=
    (Run.refl.step (asking_leave 2 0 _) (hno rfl)).step (asking_end 2 0) (hno rfl)
  have hrest := asking_cycles 3 1 (word - 1)
  have hword : 1 + (word - 1) = word := Nat.add_sub_cancel' (Nat.one_le_two_pow)
  rw [hword] at hrest
  exact ⟨_, _, _, .stage core1 core0, core0, hheld, asking_stage 2 0, Or.inl ⟨core1, core1_ne_core0, rfl⟩,
    hfirst.trans hrest, asking_wrapped _⟩

theorem below_row {m j : Nat} {s : St 2 Bool} {k : Core 2 Bool} (hcore : s.core = Function.update (asking m j).core core1 k)
    (hasked : k.asked core0 ≤ 1) : Below s core0 := by
  have hword : 1 < word := Nat.one_lt_two_pow (by decide)
  intro i
  refine lt_of_le_of_lt ?_ (lt_of_lt_of_le hword (Nat.le_add_left word _))
  rw [hcore]
  by_cases hi : i = core1
  · rw [hi, Function.update_self]
    exact hasked
  · simp [asking, hi]

/-- Core 1 leaves and ends its span with a request of its own staged for core 0, which stays owed. -/
theorem kernel_lock_nests_askingHeld : Reachable (askingHeld 2 0 fun _ => false) ∧
    (askingHeld 2 0 fun _ => false).lock.holding core1 = true ∧ Due (asking 3 1) core0 := by
  have hheld : Reachable (askingHeld 2 0 fun _ => false) := (asking_reached.step (asking_enter 2 0)).step (asking_gain 2 0)
  obtain ⟨-, hrow, -, -, hdue⟩ := kernel_lock_nests hheld
  refine ⟨hheld, (hrow core1).mpr (Or.inl (by decide)), ?_⟩
  refine hdue (.stage core1 core0) _ core0 (asking_stage 2 0) (Or.inl ⟨core1, core1_ne_core0, rfl⟩)
    (below_row rfl (by decide)) _ ?_
  exact (Run.refl.step (asking_leave 2 0 _) ⟨no_pass_of_core1 rfl, below_row rfl (by decide)⟩).step (asking_end 2 0)
    ⟨no_pass_of_core1 rfl, below_row (k := (asking 3 1).core core1) (Function.update_eq_self ..).symm (by decide)⟩

end Klock
end KickOS
