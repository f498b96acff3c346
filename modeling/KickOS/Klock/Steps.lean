import KickOS.Klock.Invariant

/-! Every step keeps the invariant. -/

namespace KickOS
namespace Klock

open Lib

variable {n : Nat} {T : Type} [DecidableEq T] {s s' : St n T} {c d : Fin n} {t next : T} {k : Core n T} {l : Ticket (Fin n)}
  {ipi : Fin n → Bool}

/-! ### States -/

omit [DecidableEq T] in
@[simp] theorem setCore_core_self : (s.setCore c k).core c = k := Function.update_self ..

omit [DecidableEq T] in
theorem setCore_core_of_ne (h : d ≠ c) : (s.setCore c k).core d = s.core d := Function.update_of_ne h ..

omit [DecidableEq T] in
@[simp] theorem setCore_setCore {k' : Core n T} : (s.setCore c k).setCore c k' = s.setCore c k' := by
  simp only [St.setCore, Function.update_idem]

theorem bracket_spec (hon : k.onCpu = some t) (f : Nat → Nat) :
    ∃ isr brackets, (s.setCore c k).bracket c f = { s.setCore c { k with isr := isr } with brackets := brackets } ∧
      (isr = none ↔ k.isr = none) ∧ Core.opened { k with isr := isr } brackets = f (k.opened s.brackets) ∧
      (∀ u, u ≠ t → brackets u = s.brackets u) ∧ (k.isr ≠ none → brackets = s.brackets) := by
  obtain ⟨depth, owed, phase, current, onCpu, isr, booked, passOwed, raise, asked, took⟩ := k
  obtain rfl : onCpu = some t := hon
  cases isr with
  | some b =>
    refine ⟨some (f b), s.brackets, ?_, by simp, rfl, fun u _ => rfl, fun _ => rfl⟩
    simp only [St.bracket, setCore_core_self, setCore_setCore]
    rfl
  | none =>
    refine ⟨none, Function.update s.brackets t (f (s.brackets t)), ?_, Iff.rfl, ?_,
      fun u hu => Function.update_of_ne hu .., fun h => absurd rfl h⟩
    · simp only [St.bracket, setCore_core_self]
      rfl
    · simp [Core.opened]

/-! ### The invariant at one core -/

theorem Inv.apart_own (h : Inv s) (c : Fin n) (t : T) (ht : (s.core c).current = some t ∨ (s.core c).onCpu = some t)
    (d : Fin n) (hd : d ≠ c) : s.has d t = false := h.apart (fun hc => hd hc.symm) (has_iff.mpr ht)

theorem Inv.live_own (h : Inv s) (c : Fin n) (t : T) (ht : s.frame t = .live) :
    (s.core c).onCpu = some t ∨ ∃ d, d ≠ c ∧ (s.core d).onCpu = some t := by
  obtain ⟨d, hd⟩ := h.live ht
  by_cases hdc : d = c
  · subst hdc
    exact Or.inl hd
  · exact Or.inr ⟨d, hdc, hd⟩

theorem Inv.not_live (h : Inv s) (helse : ∀ d, d ≠ c → s.has d t = false) (hon : (s.core c).onCpu ≠ some t) :
    s.frame t ≠ .live := by
  intro hlive
  rcases h.live_own c t hlive with hc | ⟨d, hd, hon'⟩
  · exact hon hc
  · have := helse d hd
    rw [has_iff.mpr (Or.inr hon')] at this
    cases this

theorem Inv.keep {brackets : T → Nat} (h : Inv s) (hl : l.Ok)
    (hother : ∀ d, d ≠ c → l.holding d = s.lock.holding d ∧ l.ticket d = s.lock.ticket d)
    (hcur : k.current = (s.core c).current) (hon : k.onCpu = (s.core c).onCpu)
    (hbr : brackets = s.brackets ∨ ∃ t, (s.core c).onCpu = some t ∧ s.frame t = .live ∧ ∀ u, u ≠ t → brackets u = s.brackets u)
    (hk : k.Ok l s.frame brackets c) : Inv ⟨l, Function.update s.core c k, s.frame, brackets, ipi⟩ := by
  refine h.update hl hother hk (fun d hd u hu => ⟨rfl, ?_⟩) (fun u hu => h.apart_own c u (by rwa [hcur, hon] at hu))
    (fun u hu => by rw [hon]; exact h.live_own c u hu) (fun u => ?_)
  · rcases hbr with rfl | ⟨t, ht, -, hb⟩
    · rfl
    · refine hb u fun hut => ?_
      subst hut
      have := h.apart_own c u (Or.inr ht) d hd
      rw [hu] at this
      cases this
  · rcases hbr with rfl | ⟨t, -, hlive, hb⟩
    · exact h.rest u
    · by_cases hut : u = t
      · subst hut
        simp [Rest, hlive]
      · have := h.rest u
        simpa only [Rest, hb u hut] using this

theorem Inv.reframe {f : Frame} (h : Inv s) (hl : l.Ok)
    (hother : ∀ d, d ≠ c → l.holding d = s.lock.holding d ∧ l.ticket d = s.lock.ticket d)
    (hk : k.Ok l (Function.update s.frame t f) s.brackets c) (helse : ∀ d, d ≠ c → s.has d t = false)
    (hthreads : ∀ u, k.current = some u ∨ k.onCpu = some u → ∀ d, d ≠ c → s.has d u = false)
    (hlive : ∀ u, u ≠ t → s.frame u = .live → k.onCpu = some u ∨ ∃ d, d ≠ c ∧ (s.core d).onCpu = some u)
    (hf : f = .live → k.onCpu = some t) (hrest : Rest (Function.update s.frame t f) s.brackets t) :
    Inv ⟨l, Function.update s.core c k, Function.update s.frame t f, s.brackets, ipi⟩ := by
  refine h.update hl hother hk (fun d hd u hu => ⟨?_, rfl⟩) hthreads (fun u hu => ?_) (fun u => ?_)
  · refine Function.update_of_ne (fun hut => ?_) ..
    subst hut
    rw [helse d hd] at hu
    cases hu
  · by_cases hut : u = t
    · subst hut
      rw [Function.update_self] at hu
      exact Or.inl (hf hu)
    · exact hlive u hut ((Function.update_of_ne hut ..).symm.trans hu)
  · by_cases hut : u = t
    · subst hut
      exact hrest
    · have := h.rest u
      simpa only [Rest, Function.update_of_ne hut] using this

theorem Inv.ticket_none (h : Inv s) (hclear : (s.core c).Clear) (hphase : ∀ want, (s.core c).phase ≠ .acquire want) :
    s.lock.ticket c = none := by
  by_contra hne
  rcases (h.cores c).waits.mp hne with hhold | ⟨want, hw⟩
  · rcases (h.cores c).holds.mp hhold with hd | ho
    · exact hd hclear.1
    · exact ho hclear.2
  · exact hphase want hw

theorem Inv.not_holding (h : Inv s) (hclear : (s.core c).Clear) : s.lock.holding c = false := by
  by_contra hne
  rcases (h.cores c).holds.mp (by simpa using hne) with hd | ho
  · exact hd hclear.1
  · exact ho hclear.2

theorem Inv.holding (h : Inv s) (hrow : (s.core c).depth ≠ 0 ∨ (s.core c).owed ≠ 0) :
    s.lock.holding c = true := (h.cores c).holds.mpr hrow

/-! ### The lock asked for, gained and released -/

theorem Inv.acquire {want : Want} (h : Inv s) (hclear : (s.core c).Clear) (hphase : ∀ want, (s.core c).phase ≠ .acquire want)
    (hshape : Core.Shape { s.core c with phase := .acquire want } s.frame s.brackets) : Inv (s.acquire c want) := by
  have hnone := h.ticket_none hclear hphase
  refine h.keep (h.lock.draw hnone) (fun d hd => ⟨rfl, Ticket.draw_ticket_of_ne hd⟩) rfl rfl (Or.inl rfl) ⟨?_, ?_, hshape⟩
  · rw [Ticket.draw_holding]
    exact (h.cores c).holds
  · simp

theorem Inv.move {brackets : T → Nat} (h : Inv s) (hcur : k.current = (s.core c).current) (hon : k.onCpu = (s.core c).onCpu)
    (hbr : brackets = s.brackets ∨ ∃ t, (s.core c).onCpu = some t ∧ s.frame t = .live ∧ ∀ u, u ≠ t → brackets u = s.brackets u)
    (hrow : (k.depth ≠ 0 ∨ k.owed ≠ 0) ↔ ((s.core c).depth ≠ 0 ∨ (s.core c).owed ≠ 0))
    (hold : ∀ want, (s.core c).phase ≠ .acquire want) (hphase : ∀ want, k.phase ≠ .acquire want)
    (hshape : k.Shape s.frame brackets) : Inv ⟨s.lock, Function.update s.core c k, s.frame, brackets, ipi⟩ := by
  refine h.keep h.lock (fun _ _ => ⟨rfl, rfl⟩) hcur hon hbr ⟨(h.cores c).holds.trans hrow.symm, ?_, hshape⟩
  rw [(h.cores c).waits]
  constructor
  · rintro (hh | ⟨want, hw⟩)
    · exact Or.inl hh
    · exact absurd hw (hold want)
  · rintro (hh | ⟨want, hw⟩)
    · exact Or.inl hh
    · exact absurd hw (hphase want)

omit [DecidableEq T] in
theorem ok_released {frame : T → Frame} {brackets : T → Nat} (hclear : k.Clear) (hphase : ∀ want, k.phase ≠ .acquire want)
    (hshape : k.Shape frame brackets) : k.Ok (l.release c) frame brackets c := by
  refine ⟨?_, ?_, hshape⟩
  · rw [Ticket.release_holding_self, hclear.1, hclear.2]
    simp
  · rw [Ticket.release_ticket_self, Ticket.release_holding_self]
    constructor
    · intro hc
      exact absurd rfl hc
    · rintro (hc | ⟨want, hw⟩)
      · cases hc
      · exact absurd hw (hphase want)

theorem release_other (d : Fin n) (hd : d ≠ c) :
    (l.release c).holding d = l.holding d ∧ (l.release c).ticket d = l.ticket d :=
  ⟨Ticket.release_holding_of_ne hd, Ticket.release_ticket_of_ne hd⟩

theorem gain_other (d : Fin n) (hd : d ≠ c) : (l.gain c).holding d = l.holding d ∧ (l.gain c).ticket d = l.ticket d :=
  ⟨Ticket.gain_holding_of_ne hd, rfl⟩

omit [DecidableEq T] in
theorem ok_gained {frame : T → Frame} {brackets : T → Nat} (hturn : l.turn c = true) (hrow : k.depth ≠ 0)
    (hshape : k.Shape frame brackets) : k.Ok (l.gain c) frame brackets c := by
  refine ⟨?_, ?_, hshape⟩
  · rw [Ticket.gain_holding_self]
    simp [hrow]
  · rw [Ticket.gain_ticket, Ticket.gain_holding_self, of_decide_eq_true hturn]
    simp

/-! ### Brackets -/

theorem Inv.running (h : Inv s) (hp : (s.core c).phase = .run) :
    (s.core c).depth = (s.core c).opened s.brackets ∧ (s.core c).owed = (if (s.core c).booked then 1 else 0) ∧
      ∃ t, (s.core c).Stands s.frame s.brackets t := by
  have hshape := (h.cores c).shape
  rw [Core.Shape, hp] at hshape
  exact hshape

omit [DecidableEq T] in
theorem stands_bracketed {isr : Option Nat} {depth owed : Nat} {phase : Phase n} {brackets : T → Nat} {u : T}
    (hs : k.Stands s.frame s.brackets u) (hnone : isr = none ↔ k.isr = none) (hsame : k.isr ≠ none → brackets = s.brackets) :
    Core.Stands { k with depth := depth, owed := owed, phase := phase, isr := isr } s.frame brackets u where
  onCpu := hs.onCpu
  live := hs.live
  masked := fun hi => by
    have hki : k.isr ≠ none := fun hk => hi (hnone.mpr hk)
    rw [hsame hki]
    exact hs.masked hki
  current := hs.current
  booked := fun hi => hs.booked (hnone.mp hi)
  seated := hs.seated

theorem inv_enter (h : Inv s) (hp : (s.core c).phase = .run) : Inv (s.klockEnter c) := by
  obtain ⟨hdepth, howed, t, ht⟩ := h.running hp
  unfold St.klockEnter
  split
  · rename_i hclear
    have hbooked : (s.core c).booked = false := by
      by_contra hb
      rw [Bool.not_eq_false] at hb
      rw [hb] at howed
      exact absurd (howed.symm.trans hclear.2) (by simp)
    refine h.acquire hclear (fun want hw => ?_) ?_
    · rw [hp] at hw
      cases hw
    · refine ⟨hclear, hbooked, ?_, t, ht.onCpu, ht.live, ht.masked, ht.current, ht.booked, ht.seated⟩
      exact hdepth.symm.trans hclear.1
  · rename_i hnot
    obtain ⟨isr, brackets, heq, hnone, hopened, hbr, hsame⟩ :=
      bracket_spec (s := s) (c := c) (k := { s.core c with depth := (s.core c).depth + 1 }) ht.onCpu (· + 1)
    rw [heq]
    refine h.move rfl rfl (Or.inr ⟨t, ht.onCpu, ht.live, hbr⟩) ?_ (fun want hw => ?_) (fun want hw => ?_) ?_
    · simp only [ne_eq, Nat.succ_ne_zero, not_false_eq_true, true_or, true_iff]
      by_contra hc
      exact hnot (by simpa [not_or] using hc)
    · rw [hp] at hw
      cases hw
    · rw [hp] at hw
      cases hw
    · simp only [Core.Shape, hp]
      refine ⟨?_, howed, t, ?_⟩
      · rw [hdepth]
        exact hopened.symm
      · exact stands_bracketed ht hnone hsame

theorem klockGain_attach {depth : Nat} (hon : (s.core c).onCpu = some t) :
    s.klockGain c (.attach depth) =
      ⟨s.lock.gain c, Function.update s.core c { s.core c with depth := depth, phase := .run },
        Function.update s.frame t .live, s.brackets, s.ipi⟩ := by
  simp only [St.klockGain]
  split
  · rename_i u hu
    obtain rfl := Option.some.inj (hu.symm.trans hon)
    rfl
  · rename_i hu
    exact absurd (hu.symm.trans hon) (by simp)

theorem inv_gain {want : Want} (h : Inv s) (hp : (s.core c).phase = .acquire want) (hturn : s.lock.turn c = true) :
    Inv (s.klockGain c want) := by
  have hshape := (h.cores c).shape
  cases want with
  | start =>
    rw [Core.Shape, hp] at hshape
    obtain ⟨hidle, hclear⟩ := hshape
    refine h.keep (h.lock.gain hturn) gain_other rfl rfl (Or.inl rfl) (ok_gained hturn (Nat.succ_ne_zero _) ?_)
    exact ⟨⟨hidle.onCpu, hidle.current, hidle.isr, hidle.booked⟩, by rw [hclear.1], hclear.2⟩
  | enter =>
    rw [Core.Shape, hp] at hshape
    obtain ⟨hclear, hbooked, hopen, t, ht⟩ := hshape
    obtain ⟨isr, brackets, heq, hnone, hopened, hbr, hsame⟩ :=
      bracket_spec (s := { s with lock := s.lock.gain c }) (c := c)
        (k := { s.core c with depth := (s.core c).depth + 1, phase := .run }) ht.onCpu (· + 1)
    show Inv (St.bracket _ c (· + 1))
    rw [heq]
    refine h.keep (h.lock.gain hturn) gain_other rfl rfl (Or.inr ⟨t, ht.onCpu, ht.live, hbr⟩)
      (ok_gained hturn (Nat.succ_ne_zero _) ?_)
    refine ⟨?_, ?_, t, stands_bracketed (k := s.core c) ht hnone hsame⟩
    · rw [hopened]
      show (s.core c).depth + 1 = (s.core c).opened s.brackets + 1
      rw [hclear.1, hopen]
    · show (s.core c).owed = if (s.core c).booked then 1 else 0
      rw [hbooked, hclear.2]
      rfl
  | attach depth =>
    rw [Core.Shape, hp] at hshape
    obtain ⟨hclear, t, ht, hparked⟩ := hshape
    have hrest := h.rest t
    rw [Rest, hparked] at hrest
    rw [klockGain_attach ht.onCpu]
    refine h.reframe (h.lock.gain hturn) gain_other (ok_gained hturn hrest.2 ?_) (h.apart_own c t (Or.inr ht.onCpu))
      (h.apart_own c) (fun u _ hu => h.live_own c u hu) (fun _ => ht.onCpu) (by simp [Rest])
    refine ⟨?_, ?_, t, ht.onCpu, Function.update_self .., fun hi => absurd ht.isr hi, fun _ => ht.current,
      fun _ => ht.booked, t, ht.current⟩
    · simp only [Core.opened, ht.isr, ht.onCpu]
      exact hrest.1.symm
    · show (s.core c).owed = if (s.core c).booked then 1 else 0
      rw [ht.booked, hclear.2]
      rfl

theorem inv_leave (h : Inv s) (hp : (s.core c).phase = .run) (hopen : (s.core c).opened s.brackets ≠ 0) :
    Inv (s.klockLeave c) := by
  obtain ⟨hdepth, howed, t, ht⟩ := h.running hp
  obtain ⟨isr, brackets, heq, hnone, hopened, hbr, hsame⟩ :=
    bracket_spec (s := s) (c := c) (k := { s.core c with depth := (s.core c).depth - 1 }) ht.onCpu (· - 1)
  have hpos : (s.core c).depth ≠ 0 := by
    rw [hdepth]
    exact hopen
  have hopened : Core.opened { s.core c with depth := (s.core c).depth - 1, isr := isr } brackets = (s.core c).depth - 1 := by
    rw [hopened, hdepth]
    rfl
  simp only [St.klockLeave, heq]
  split
  · -- the last bracket: the lock goes
    rename_i hlast
    have hbooked : (s.core c).booked = false := by
      by_contra hb
      rw [Bool.not_eq_false] at hb
      rw [hb] at howed
      exact absurd (howed.symm.trans hlast.2) (by simp)
    simp only [St.setCore, Function.update_idem, Function.update_self]
    refine h.keep (h.lock.release (h.holding (Or.inl hpos))) release_other rfl rfl (Or.inr ⟨t, ht.onCpu, ht.live, hbr⟩)
      (ok_released hlast (fun want hw => by cases hw) ?_)
    refine ⟨hlast, hbooked, ?_, t, stands_bracketed (k := s.core c) ht hnone hsame⟩
    rw [← hlast.1, ← hopened]
    rfl
  · rename_i hmore
    refine h.move rfl rfl (Or.inr ⟨t, ht.onCpu, ht.live, hbr⟩) ?_ (fun want hw => ?_) (fun want hw => ?_) ?_
    · constructor
      · intro _
        exact Or.inl hpos
      · intro _
        by_contra hc
        exact hmore (by simpa [not_or] using hc)
    · rw [hp] at hw
      cases hw
    · rw [hp] at hw
      cases hw
    · simp only [Core.Shape, hp]
      exact ⟨hopened.symm, howed, t, stands_bracketed (k := s.core c) ht hnone hsame⟩

/-! ### Passes and switches -/

omit [DecidableEq T] in
theorem shape_note {passOwed : Bool} {raise : Fin n → Bool} {asked took : Fin n → Nat} {frame : T → Frame} {brackets : T → Nat}
    (h : k.Shape frame brackets) :
    Core.Shape { k with passOwed := passOwed, raise := raise, asked := asked, took := took } frame brackets := by
  have hidle : k.Idle → Core.Idle { k with passOwed := passOwed, raise := raise, asked := asked, took := took } :=
    fun hi => ⟨hi.onCpu, hi.current, hi.isr, hi.booked⟩
  have hstands : ∀ {t}, k.Stands frame brackets t →
      Core.Stands { k with passOwed := passOwed, raise := raise, asked := asked, took := took } frame brackets t :=
    fun hs => { hs with }
  have hentering : ∀ {t}, k.Entering frame t →
      Core.Entering { k with passOwed := passOwed, raise := raise, asked := asked, took := took } frame t :=
    fun he => ⟨he.onCpu, he.current, he.isr, he.booked, he.parked⟩
  obtain ⟨depth, owed, phase, current, onCpu, isr, booked, passOwed', raise', asked', took'⟩ := k
  cases phase with
  | boot =>
    obtain ⟨hi, hc⟩ := h
    exact ⟨hidle hi, hc⟩
  | acquire want =>
    cases want with
    | enter =>
      obtain ⟨hc, hb, ho, t, ht⟩ := h
      exact ⟨hc, hb, ho, t, hstands ht⟩
    | attach depth =>
      obtain ⟨hc, t, ht, hf⟩ := h
      exact ⟨hc, t, hentering ht, hf⟩
    | start =>
      obtain ⟨hi, hc⟩ := h
      exact ⟨hidle hi, hc⟩
  | starting =>
    obtain ⟨hi, hc⟩ := h
    exact ⟨hidle hi, hc⟩
  | run =>
    obtain ⟨hd, ho, t, ht⟩ := h
    exact ⟨hd, ho, t, hstands ht⟩
  | unlocking => exact h
  | spanEnd kind =>
    cases kind with
    | leave =>
      obtain ⟨hc, hb, ho, t, ht⟩ := h
      exact ⟨hc, hb, ho, t, hstands ht⟩
    | switch =>
      obtain ⟨hc, t, ht⟩ := h
      exact ⟨hc, t, hentering ht⟩
    | start =>
      obtain ⟨hc, t, ht⟩ := h
      exact ⟨hc, t, hentering ht⟩
  | taking rest stood =>
    obtain ⟨hc, hb, hi, t, ht⟩ := h
    exact ⟨hc, hb, hi, t, hstands ht⟩

theorem inv_note {passOwed : Bool} {raise : Fin n → Bool} {asked took : Fin n → Nat} (h : Inv s) :
    Inv { s.setCore c { s.core c with passOwed := passOwed, raise := raise, asked := asked, took := took } with ipi := ipi } :=
  h.keep h.lock (fun _ _ => ⟨rfl, rfl⟩) rfl rfl (Or.inl rfl) ⟨(h.cores c).holds, (h.cores c).waits, shape_note (h.cores c).shape⟩

theorem inv_switchBooked {b : Nat} (h : Inv s) (hp : (s.core c).phase = .run) (hisr : (s.core c).isr = some b)
    (hopen : (s.core c).opened s.brackets ≠ 0) (helse : ∀ d, d ≠ c → s.has d next = false) : Inv (s.switchBooked c next) := by
  obtain ⟨hdepth, -, t, ht⟩ := h.running hp
  have hpos : (s.core c).depth ≠ 0 := by
    rw [hdepth]
    exact hopen
  have heq : s.switchBooked c next = s.setCore c { s.core c with current := some next, owed := 1, booked := true } := by
    simp only [St.switchBooked, St.klockDetach, St.klockAttach, setCore_core_self, setCore_setCore]
    rfl
  rw [heq]
  refine h.update h.lock (fun d _ => ⟨rfl, rfl⟩) ⟨?_, ?_, ?_⟩ (fun d _ u _ => ⟨rfl, rfl⟩) (fun u hu => ?_)
    (fun u hu => h.live_own c u hu) h.rest
  · exact iff_of_true (h.holding (Or.inl hpos)) (Or.inl hpos)
  · exact (h.cores c).waits
  · simp only [Core.Shape, hp]
    exact ⟨hdepth, rfl, t, ht.onCpu, ht.live, ht.masked, fun hb => absurd hb (by simp),
      fun hi => absurd (hisr.symm.trans hi) (by simp), next, rfl⟩
  · rcases hu with hu | hu
    · cases hu
      exact helse
    · exact h.apart_own c u (Or.inr hu)

theorem inv_switchNow (h : Inv s) (hp : (s.core c).phase = .run) (hisr : (s.core c).isr = none) (hon : (s.core c).onCpu = some t)
    (hopen : (s.core c).opened s.brackets ≠ 0) (helse : ∀ d, d ≠ c → s.has d next = false)
      (hne : (s.core c).current ≠ some next) :
    Inv (s.switchNow c t next) := by
  obtain ⟨hdepth, -, u, hu⟩ := h.running hp
  obtain rfl := Option.some.inj (hon.symm.trans hu.onCpu)
  have hbooked := hu.booked hisr
  have hcur := hu.current hbooked
  have hnt : next ≠ t := by
    rintro rfl
    exact hne hcur
  have hbr : (s.core c).depth = s.brackets t := by
    rw [hdepth, Core.opened, hisr, hon]
  have hpos : (s.core c).depth ≠ 0 := by
    rw [hdepth]
    exact hopen
  have heq : s.switchNow c t next =
      ⟨s.lock, Function.update s.core c { s.core c with current := some next, depth := 0, owed := 1, phase := .unlocking },
        Function.update s.frame t (.parked (s.core c).depth), s.brackets, s.ipi⟩ := by
    simp only [St.switchNow, St.klockDetach, St.setCore, Function.update_self, Function.update_idem]
  have hnext : s.frame next ≠ .live := h.not_live helse (by
    rw [hon]
    exact fun hc => hnt (Option.some.inj hc).symm)
  rw [heq]
  refine h.reframe h.lock (fun d _ => ⟨rfl, rfl⟩) ⟨?_, ?_, ?_⟩ (h.apart_own c t (Or.inr hon)) (fun u hu => ?_)
    (fun u hut hu => h.live_own c u hu) (fun hf => by cases hf) ?_
  · exact iff_of_true (h.holding (Or.inl hpos)) (Or.inr Nat.one_ne_zero)
  · have hhold := h.holding (c := c) (Or.inl hpos)
    exact iff_of_true ((h.cores c).waits.mpr (Or.inl hhold)) (Or.inl hhold)
  · refine ⟨rfl, rfl, hisr, hbooked, t, next, hon, rfl, ?_, ?_⟩
    · rw [Function.update_self]
      simp
    · rw [Function.update_of_ne hnt]
      exact hnext
  · rcases hu with hu | hu
    · cases hu
      exact helse
    · exact h.apart_own c u (Or.inr hu)
  · rw [Rest, Function.update_self]
    exact ⟨hbr.symm, hpos⟩

theorem inv_drop {kind : End} {u : T} {passOwed : Bool} (h : Inv s) (hrow : (s.core c).depth ≠ 0 ∨ (s.core c).owed ≠ 0)
    (hkind : kind ≠ .leave) (hisr : (s.core c).isr = none) (hbooked : (s.core c).booked = false) (hu : s.frame u ≠ .live)
    (helse : ∀ d, d ≠ c → s.has d u = false) (hleft : ∀ t, (s.core c).onCpu = some t → s.frame t ≠ .live) :
    Inv ((s.setCore c { s.core c with current := some u, onCpu := some u, passOwed := passOwed }).drop c kind) := by
  have heq : (s.setCore c { s.core c with current := some u, onCpu := some u, passOwed := passOwed }).drop c kind =
      ⟨s.lock.release c,
        Function.update s.core c
          { s.core c with
            current := some u, onCpu := some u, passOwed := passOwed, depth := 0, owed := 0, phase := .spanEnd kind },
        s.frame, s.brackets, s.ipi⟩ := by
    simp only [St.drop, St.setCore, Function.update_self, Function.update_idem]
  rw [heq]
  refine h.update (h.lock.release (h.holding hrow)) release_other (ok_released ⟨rfl, rfl⟩ (fun want hw => by cases hw) ?_)
    (fun d _ t _ => ⟨rfl, rfl⟩) (fun t ht => ?_) (fun t ht => ?_) h.rest
  · cases kind with
    | leave => exact absurd rfl hkind
    | switch => exact ⟨⟨rfl, rfl⟩, u, rfl, rfl, hisr, hbooked, hu⟩
    | start => exact ⟨⟨rfl, rfl⟩, u, rfl, rfl, hisr, hbooked, hu⟩
  · have htu : t = u := by
      rcases ht with ht | ht
      · exact (Option.some.inj ht).symm
      · exact (Option.some.inj ht).symm
    subst htu
    exact helse
  · rcases h.live_own c t ht with hc | hd
    · exact absurd ht (hleft t hc)
    · exact Or.inr hd

theorem inv_switchUnlock (h : Inv s) (hp : (s.core c).phase = .unlocking) :
    Inv ((s.setCore c { s.core c with onCpu := (s.core c).current }).drop c .switch) := by
  have hshape := (h.cores c).shape
  rw [Core.Shape, hp] at hshape
  obtain ⟨-, howed, hisr, hbooked, t, u, ht, hu, hft, hfu⟩ := hshape
  have heq : ({ s.core c with onCpu := (s.core c).current } : Core n T) =
      { s.core c with current := some u, onCpu := some u, passOwed := (s.core c).passOwed } := by
    rw [← hu]
  rw [heq]
  refine inv_drop h (Or.inr (by rw [howed]; exact Nat.one_ne_zero)) (by simp) hisr hbooked hfu (h.apart_own c u (Or.inl hu)) ?_
  intro v hv
  obtain rfl := Option.some.inj (ht.symm.trans hv)
  exact hft

theorem inv_seat {first : T} (h : Inv s) (hp : (s.core c).phase = .starting) (helse : ∀ d, d ≠ c → s.has d first = false) :
    Inv ((s.setCore c { s.core c with current := some first, onCpu := some first, passOwed := false }).drop c .start) := by
  have hshape := (h.cores c).shape
  rw [Core.Shape, hp] at hshape
  obtain ⟨hidle, hdepth, -⟩ := hshape
  have hon : ∀ t, (s.core c).onCpu ≠ some t := fun t ht => by
    rw [hidle.onCpu] at ht
    cases ht
  refine inv_drop h (Or.inl (by rw [hdepth]; exact Nat.one_ne_zero)) (by simp) hidle.isr hidle.booked
    (h.not_live helse (hon first)) helse ?_
  exact fun t ht => absurd ht (hon t)

/-! ### The end of a span -/

theorem inv_resume (h : Inv s) (hclear : (s.core c).Clear) (hphase : ∀ want, (s.core c).phase ≠ .acquire want)
    (ht : (s.core c).Entering s.frame t) : Inv (s.resume c t) := by
  have hnone := h.ticket_none hclear hphase
  unfold St.resume
  split
  · rename_i depth hparked
    rw [St.klockAttach, if_pos hclear.2]
    refine h.acquire hclear hphase ⟨hclear, t, ⟨ht.onCpu, ht.current, ht.isr, ht.booked, ht.parked⟩, hparked⟩
  · rename_i hnot
    have hzero : s.brackets t = 0 := by
      have hrest := h.rest t
      unfold Rest at hrest
      split at hrest
      · exact hrest
      · rename_i depth hd
        exact absurd hd (hnot depth)
      · exact hrest
      · rename_i hl
        exact absurd hl ht.parked
    refine h.reframe h.lock (fun d _ => ⟨rfl, rfl⟩) ⟨(h.cores c).holds, ?_,
      ?_⟩ (h.apart_own c t (Or.inr ht.onCpu)) (h.apart_own c) (fun u _ hu => h.live_own c u hu) (fun _ => ht.onCpu)
      (by simp [Rest])
    · have hhold : s.lock.holding c = false := h.not_holding hclear
      constructor
      · intro hc
        exact absurd hnone hc
      · rintro (hc | ⟨want, hw⟩)
        · rw [hhold] at hc
          cases hc
        · cases hw
    · refine ⟨?_, ?_, t, ht.onCpu, Function.update_self .., fun hi => absurd ht.isr hi, fun _ => ht.current,
        fun _ => ht.booked, t, ht.current⟩
      · simp only [Core.opened, ht.isr, ht.onCpu]
        exact hclear.1.trans hzero.symm
      · show (s.core c).owed = if (s.core c).booked then 1 else 0
        rw [ht.booked, hclear.2]
        rfl

theorem goOn_some {kind : End} (hkind : kind ≠ .leave) (hon : (s.core c).onCpu = some t) : s.goOn c kind = s.resume c t := by
  unfold St.goOn
  cases kind with
  | leave => exact absurd rfl hkind
  | switch => simp only [hon]
  | start => simp only [hon]

theorem inv_goOn {kind : End} (h : Inv s) (hp : (s.core c).phase = .spanEnd kind) : Inv (s.goOn c kind) := by
  have hshape := (h.cores c).shape
  rw [Core.Shape, hp] at hshape
  have hnot : ∀ want, (s.core c).phase ≠ .acquire want := fun want hw => by
    rw [hp] at hw
    cases hw
  cases kind with
  | leave =>
    obtain ⟨hclear, hbooked, hopen, t, ht⟩ := hshape
    refine h.move rfl rfl (Or.inl rfl) Iff.rfl hnot (fun want hw => by cases hw) ⟨?_, ?_, t, ?_⟩
    · exact hclear.1.trans hopen.symm
    · show (s.core c).owed = if (s.core c).booked then 1 else 0
      rw [hbooked, hclear.2]
      rfl
    · exact { ht with }
  | switch =>
    obtain ⟨hclear, t, ht⟩ := hshape
    rw [goOn_some (by simp) ht.onCpu]
    exact inv_resume h hclear hnot ht
  | start =>
    obtain ⟨hclear, t, ht⟩ := hshape
    rw [goOn_some (by simp) ht.onCpu]
    exact inv_resume h hclear hnot ht

omit [DecidableEq T] in
theorem spanRaise_eq (s : St n T) (c : Fin n) (kind : End) :
    ∃ ipi, s.spanRaise c kind =
      { s.setCore c { s.core c with
          raise := ((s.flush c).core c).raise, asked := ((s.flush c).core c).asked } with ipi := ipi } := by
  have hcore : (s.flush c).core c =
      { s.core c with raise := ((s.flush c).core c).raise, asked := ((s.flush c).core c).asked } := by
    simp only [St.flush, setCore_core_self]
  have hflush : s.flush c = { s.setCore c ((s.flush c).core c) with ipi := (s.flush c).ipi } := by
    simp only [St.flush, St.setCore, Function.update_self]
  unfold St.spanRaise
  rw [← hcore]
  split
  · refine ⟨Function.update (s.flush c).ipi c true, ?_⟩
    conv_lhs => rw [hflush]
  · exact ⟨(s.flush c).ipi, hflush⟩

theorem inv_endSpan {kind : End} (h : Inv s) (hp : (s.core c).phase = .spanEnd kind) : Inv (s.endSpan c kind) := by
  obtain ⟨ipi, heq⟩ := spanRaise_eq s c kind
  rw [St.endSpan, heq]
  have hphase : ∀ {raise asked ipi},
      (({ s.setCore c { s.core c with raise := raise, asked := asked } with ipi := ipi } : St n T).core c).phase =
        .spanEnd kind := by
    intro raise asked ipi
    simp only [St.setCore, Function.update_self]
    exact hp
  exact inv_goOn (inv_note h) hphase

/-! ### Exceptions -/

theorem inv_interrupt {phase : Phase n} (h : Inv s) (hp : (s.core c).phase = .run) (hisr : (s.core c).isr = none)
    (hopen : (s.core c).opened s.brackets = 0) (hphase : phase = .run ∨ ∃ rest stood, phase = .taking rest stood) :
    Inv { s.setCore c { s.core c with isr := some 0, phase := phase } with ipi := ipi } := by
  obtain ⟨hdepth, howed, t, ht⟩ := h.running hp
  have hbooked := ht.booked hisr
  have hzero : s.brackets t = 0 := by
    rw [Core.opened, hisr, ht.onCpu] at hopen
    exact hopen
  have howed : (s.core c).owed = 0 := by
    rw [howed, hbooked]
    rfl
  have hstands : Core.Stands { s.core c with isr := some 0, phase := phase } s.frame s.brackets t :=
    ⟨ht.onCpu, ht.live, fun _ => hzero, ht.current, fun hi => absurd hi (by simp), ht.seated⟩
  refine h.move rfl rfl (Or.inl rfl) Iff.rfl (fun want hw => ?_) (fun want hw => ?_) ?_
  · rw [hp] at hw
    cases hw
  · have hw : phase = .acquire want := hw
    rcases hphase with hr | ⟨rest, stood, hr⟩
    · rw [hr] at hw
      cases hw
    · rw [hr] at hw
      cases hw
  · rcases hphase with rfl | ⟨rest, stood, rfl⟩
    · refine ⟨hdepth.trans hopen, ?_, t, hstands⟩
      show (s.core c).owed = if (s.core c).booked then 1 else 0
      rw [hbooked, howed]
      rfl
    · exact ⟨⟨hdepth.trans hopen, howed⟩, hbooked, rfl, t, hstands⟩

theorem inv_taking {rest rest' : List (Fin n)} {stood stood' passOwed : Bool} {took : Fin n → Nat} {phase : Phase n} (h : Inv s)
    (hp : (s.core c).phase = .taking rest stood) (hphase : phase = .run ∨ phase = .taking rest' stood') :
    Inv (s.setCore c { s.core c with took := took, phase := phase, passOwed := passOwed }) := by
  have hshape := (h.cores c).shape
  rw [Core.Shape, hp] at hshape
  obtain ⟨hclear, hbooked, hisr, t, ht⟩ := hshape
  have hstands : Core.Stands { s.core c with took := took, phase := phase, passOwed := passOwed } s.frame s.brackets t :=
    { ht with }
  refine h.move rfl rfl (Or.inl rfl) Iff.rfl (fun want hw => ?_) (fun want hw => ?_) ?_
  · rw [hp] at hw
    cases hw
  · have hw : phase = .acquire want := hw
    rcases hphase with hr | hr
    · rw [hr] at hw
      cases hw
    · rw [hr] at hw
      cases hw
  · rcases hphase with rfl | rfl
    · refine ⟨?_, ?_, t, hstands⟩
      · simp only [Core.opened, hisr]
        exact hclear.1
      · show (s.core c).owed = if (s.core c).booked then 1 else 0
        rw [hbooked, hclear.2]
        rfl
    · exact ⟨hclear, hbooked, hisr, t, hstands⟩

theorem inv_isrReturn (h : Inv s) (hp : (s.core c).phase = .run) (hisr : (s.core c).isr = some 0)
    (hbooked : (s.core c).booked = false) : Inv (s.setCore c { s.core c with isr := none }) := by
  obtain ⟨hdepth, howed, t, ht⟩ := h.running hp
  have hzero : s.brackets t = 0 := ht.masked (by rw [hisr]; simp)
  have hd : (s.core c).depth = 0 := by
    rw [hdepth, Core.opened, hisr]
  refine h.move rfl rfl (Or.inl rfl) Iff.rfl (fun want hw => ?_) (fun want hw => ?_) ?_
  · rw [hp] at hw
    cases hw
  · rw [hp] at hw
    cases hw
  · simp only [Core.Shape, hp]
    refine ⟨?_, howed, t, ht.onCpu, ht.live, fun hi => absurd rfl hi, ht.current, fun _ => hbooked, ht.seated⟩
    simp only [Core.opened, ht.onCpu, hd, hzero]

/-- The booked switch is performed: the interrupted frame is saved, and the lock is still owed. -/
theorem inv_isrSwitch (h : Inv s) (hp : (s.core c).phase = .run) (hisr : (s.core c).isr = some 0)
    (hbooked : (s.core c).booked = true) (hon : (s.core c).onCpu = some t) :
    Inv ({ s with frame := Function.update s.frame t .interrupted }.setCore c
      { s.core c with isr := none, booked := false, phase := .unlocking }) := by
  obtain ⟨hdepth, howed, u, hu⟩ := h.running hp
  obtain rfl := Option.some.inj (hon.symm.trans hu.onCpu)
  have howed : (s.core c).owed = 1 := by
    rw [howed, hbooked]
    rfl
  have hd : (s.core c).depth = 0 := by
    rw [hdepth, Core.opened, hisr]
  have hzero : s.brackets t = 0 := hu.masked (by rw [hisr]; simp)
  obtain ⟨v, hv⟩ := hu.seated
  refine h.reframe h.lock (fun d _ => ⟨rfl, rfl⟩) ⟨(h.cores c).holds, ?_, ?_⟩ (h.apart_own c t (Or.inr hon)) (h.apart_own c)
    (fun w _ hw => h.live_own c w hw) (fun hf => by cases hf) ?_
  · have hhold := h.holding (c := c) (Or.inr (by rw [howed]; exact Nat.one_ne_zero))
    exact iff_of_true ((h.cores c).waits.mpr (Or.inl hhold)) (Or.inl hhold)
  · refine ⟨hd, howed, rfl, rfl, t, v, hon, hv, ?_, ?_⟩
    · rw [Function.update_self]
      simp
    · by_cases hvt : v = t
      · subst hvt
        rw [Function.update_self]
        simp
      · rw [Function.update_of_ne hvt]
        refine h.not_live (h.apart_own c v (Or.inl hv)) ?_
        rw [hon]
        exact fun hc => hvt (Option.some.inj hc).symm
  · rw [Rest, Function.update_self]
    exact hzero

theorem inv_build (h : Inv s) (hfree : ∀ d, s.has d t = false) :
    Inv { s with frame := Function.update s.frame t .fresh, brackets := Function.update s.brackets t 0 } := by
  have hother : ∀ {d u}, s.has d u = true → u ≠ t := by
    rintro d u hu rfl
    rw [hfree d] at hu
    cases hu
  refine ⟨h.lock, fun d => ?_, h.apart, fun {u} hu => ?_, fun u => ?_⟩
  · have hok := h.cores d
    refine ⟨hok.holds, hok.waits, hok.shape.congr fun u hu => ?_⟩
    have hne : u ≠ t := hother (has_iff.mpr hu)
    exact ⟨Function.update_of_ne hne .., Function.update_of_ne hne ..⟩
  · by_cases hut : u = t
    · subst hut
      simp at hu
    · exact h.live ((Function.update_of_ne hut ..).symm.trans hu)
  · by_cases hut : u = t
    · subst hut
      simp [Rest]
    · have := h.rest u
      simpa only [Rest, Function.update_of_ne hut] using this

end Klock
end KickOS
