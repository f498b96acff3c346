import KickOS.Klock.Model

/-! What holds between the rows, the lock and the frames at every step.

A core's row counts the brackets open in what it executes, with `owed` set exactly while a switch is on its way. A
thread that no core stands on keeps its brackets, and where it is parked inside `switch_to` its frame holds their
number. -/

namespace KickOS
namespace Klock

variable {n : Nat} {T : Type} {frame frame' : T → Frame} {brackets brackets' : T → Nat}

/-! ### One core -/

namespace Core

variable (k : Core n T)

/-- The core has no thread. -/
structure Idle : Prop where
  onCpu : k.onCpu = none
  current : k.current = none
  isr : k.isr = none
  booked : k.booked = false

/-- The core stands on a thread, in its context or in an exception's. -/
structure Stands (frame : T → Frame) (brackets : T → Nat) (t : T) : Prop where
  onCpu : k.onCpu = some t
  live : frame t = .live
  masked : k.isr ≠ none → brackets t = 0
  current : k.booked = false → k.current = some t
  booked : k.isr = none → k.booked = false
  seated : ∃ u, k.current = some u

/-- The core is about to enter a thread. -/
structure Entering (frame : T → Frame) (t : T) : Prop where
  onCpu : k.onCpu = some t
  current : k.current = some t
  isr : k.isr = none
  booked : k.booked = false
  parked : frame t ≠ .live

def Clear : Prop := k.depth = 0 ∧ k.owed = 0

/-- What a core's row and threads are at each point of its code. -/
def Shape (frame : T → Frame) (brackets : T → Nat) : Prop :=
  match k.phase with
  | .boot => k.Idle ∧ k.Clear
  | .acquire .enter => k.Clear ∧ k.booked = false ∧ k.opened brackets = 0 ∧ ∃ t, k.Stands frame brackets t
  | .acquire (.attach depth) => k.Clear ∧ ∃ t, k.Entering frame t ∧ frame t = .parked depth
  | .acquire .start => k.Idle ∧ k.Clear
  | .starting => k.Idle ∧ k.depth = 1 ∧ k.owed = 0
  | .run => k.depth = k.opened brackets ∧ k.owed = (if k.booked then 1 else 0) ∧ ∃ t, k.Stands frame brackets t
  | .unlocking =>
    k.depth = 0 ∧ k.owed = 1 ∧ k.isr = none ∧ k.booked = false ∧
      ∃ t u, k.onCpu = some t ∧ k.current = some u ∧ frame t ≠ .live ∧ frame u ≠ .live
  | .spanEnd .leave => k.Clear ∧ k.booked = false ∧ k.opened brackets = 0 ∧ ∃ t, k.Stands frame brackets t
  | .spanEnd _ => k.Clear ∧ ∃ t, k.Entering frame t
  | .taking _ _ => k.Clear ∧ k.booked = false ∧ k.isr = some 0 ∧ ∃ t, k.Stands frame brackets t

variable {k}

theorem opened_congr {t : T} (h : k.onCpu = some t) (hb : brackets' t = brackets t) : k.opened brackets' = k.opened brackets := by
  unfold Core.opened
  rw [h]
  cases k.isr with
  | none => exact hb
  | some b => rfl

theorem Stands.congr {t : T} (h : k.Stands frame brackets t) (hf : frame' t = frame t) (hb : brackets' t = brackets t) :
    k.Stands frame' brackets' t :=
  ⟨h.onCpu, hf.trans h.live, fun hi => hb.trans (h.masked hi), h.current, h.booked, h.seated⟩

theorem Shape.congr (h : k.Shape frame brackets)
    (hsame : ∀ t, k.current = some t ∨ k.onCpu = some t → frame' t = frame t ∧ brackets' t = brackets t) :
      k.Shape frame' brackets' := by
  unfold Core.Shape at h ⊢
  split at h
  · exact h
  · obtain ⟨hc, hb, ho, t, ht⟩ := h
    obtain ⟨hf, hbr⟩ := hsame t (Or.inr ht.onCpu)
    exact ⟨hc, hb, (opened_congr ht.onCpu hbr).trans ho, t, ht.congr hf hbr⟩
  · obtain ⟨hc, t, ht, hp⟩ := h
    obtain ⟨hf, -⟩ := hsame t (Or.inr ht.onCpu)
    exact ⟨hc, t, ⟨ht.onCpu, ht.current, ht.isr, ht.booked, hf ▸ ht.parked⟩, hf.trans hp⟩
  · exact h
  · exact h
  · obtain ⟨hd, ho, t, ht⟩ := h
    obtain ⟨hf, hbr⟩ := hsame t (Or.inr ht.onCpu)
    exact ⟨hd.trans (opened_congr ht.onCpu hbr).symm, ho, t, ht.congr hf hbr⟩
  · obtain ⟨hd, ho, hi, hb, t, u, ht, hu, hft, hfu⟩ := h
    exact ⟨hd, ho, hi, hb, t, u, ht, hu, (hsame t (Or.inr ht)).1 ▸ hft, (hsame u (Or.inl hu)).1 ▸ hfu⟩
  · obtain ⟨hc, hb, ho, t, ht⟩ := h
    obtain ⟨hf, hbr⟩ := hsame t (Or.inr ht.onCpu)
    exact ⟨hc, hb, (opened_congr ht.onCpu hbr).trans ho, t, ht.congr hf hbr⟩
  · obtain ⟨hc, t, ht⟩ := h
    exact ⟨hc, t, ⟨ht.onCpu, ht.current, ht.isr, ht.booked, (hsame t (Or.inr ht.onCpu)).1 ▸ ht.parked⟩⟩
  · obtain ⟨hc, hb, hi, t, ht⟩ := h
    obtain ⟨hf, hbr⟩ := hsame t (Or.inr ht.onCpu)
    exact ⟨hc, hb, hi, t, ht.congr hf hbr⟩

/-- The lock is held by a core exactly when its row says so, and a number is drawn only to hold it or to wait for it. -/
structure Ok (l : Lib.Ticket (Fin n)) (frame : T → Frame) (brackets : T → Nat) (c : Fin n) (k : Core n T) : Prop where
  holds : l.holding c = true ↔ k.depth ≠ 0 ∨ k.owed ≠ 0
  waits : (l.ticket c ≠ none) ↔ l.holding c = true ∨ ∃ want, k.phase = .acquire want
  shape : k.Shape frame brackets

end Core

/-! ### The machine -/

/-- A thread that no core runs keeps its brackets where its frame says. -/
def Rest (frame : T → Frame) (brackets : T → Nat) (t : T) : Prop :=
  match frame t with
  | .fresh => brackets t = 0
  | .parked depth => brackets t = depth ∧ depth ≠ 0
  | .interrupted => brackets t = 0
  | .live => True

variable [DecidableEq T] {s s' : St n T} {c d : Fin n} {t : T}

structure Inv (s : St n T) : Prop where
  lock : s.lock.Ok
  cores : ∀ c, (s.core c).Ok s.lock s.frame s.brackets c
  apart : ∀ {c d t}, c ≠ d → s.has c t = true → s.has d t = false
  live : ∀ {t}, s.frame t = .live → ∃ c, (s.core c).onCpu = some t
  rest : ∀ t, Rest s.frame s.brackets t

theorem has_iff : s.has c t = true ↔ (s.core c).current = some t ∨ (s.core c).onCpu = some t := by
  simp [St.has]

theorem elsewhere_false_iff : s.elsewhere c t = false ↔ ∀ d, d ≠ c → s.has d t = false := by
  simp [St.elsewhere, List.any_eq_false]

theorem inv_initial : Inv (initial n T) where
  lock := Lib.Ticket.ok_free
  cores := fun c => by
    refine ⟨?_, ?_, ?_⟩
    · simp [initial, Lib.Ticket.free, Core.initial]
    · simp [initial, Lib.Ticket.free, Core.initial]
    · exact ⟨⟨rfl, rfl, rfl, rfl⟩, rfl, rfl⟩
  apart := fun _ h => by simp [initial, St.has, Core.initial] at h
  live := fun h => by simp [initial] at h
  rest := fun t => rfl

theorem Inv.update (h : Inv s) {l : Lib.Ticket (Fin n)} {k : Core n T} {frame : T → Frame} {brackets : T → Nat}
    {ipi : Fin n → Bool} (hl : l.Ok) (hother : ∀ d, d ≠ c → l.holding d = s.lock.holding d ∧
    l.ticket d = s.lock.ticket d) (hk : k.Ok l frame brackets c) (hsame : ∀ d, d ≠ c → ∀ t, s.has d t = true →
    frame t = s.frame t ∧ brackets t = s.brackets t) (hapart : ∀ t, k.current = some t ∨ k.onCpu = some t →
    ∀ d, d ≠ c → s.has d t = false) (hlive : ∀ t, frame t = .live → k.onCpu = some t ∨ ∃ d, d ≠ c ∧
    (s.core d).onCpu = some t) (hrest : ∀ t, Rest frame brackets t) :
    Inv ⟨l, Function.update s.core c k, frame, brackets, ipi⟩ where
  lock := hl
  cores := fun d => by
    by_cases hd : d = c
    · subst hd
      show Core.Ok l frame brackets d (Function.update s.core d k d)
      rw [Function.update_self]
      exact hk
    · show Core.Ok l frame brackets d (Function.update s.core c k d)
      rw [Function.update_of_ne hd]
      obtain ⟨hhold, htick⟩ := hother d hd
      have hok := h.cores d
      exact ⟨by rw [hhold]; exact hok.holds, by rw [hhold, htick]; exact hok.waits,
        hok.shape.congr fun t ht => hsame d hd t (has_iff.mpr ht)⟩
  apart := by
    have hmine : ∀ {t}, (⟨l, Function.update s.core c k, frame, brackets, ipi⟩ : St n T).has c t = true →
        k.current = some t ∨ k.onCpu = some t := by
      intro t ht
      have := has_iff.mp ht
      simpa only [Function.update_self] using this
    have htheirs : ∀ {e t}, e ≠ c → (⟨l, Function.update s.core c k, frame, brackets, ipi⟩ : St n T).has e t = s.has e t := by
      intro e t he
      simp only [St.has, Function.update_of_ne he]
    intro e f t hne he
    by_cases hec : e = c
    · subst hec
      rw [htheirs (fun hf => hne hf.symm)]
      exact hapart t (hmine he) f fun hf => hne hf.symm
    · rw [htheirs hec] at he
      by_cases hfc : f = c
      · subst hfc
        by_contra hcon
        have hcon := Bool.eq_true_of_not_eq_false hcon
        have := hapart t (hmine hcon) e hec
        rw [he] at this
        cases this
      · rw [htheirs hfc]
        exact h.apart hne he
  live := fun {t} ht => by
    rcases hlive t ht with hc | ⟨d, hd, ho⟩
    · exact ⟨c, by show (Function.update s.core c k c).onCpu = some t; rw [Function.update_self]; exact hc⟩
    · exact ⟨d, by show (Function.update s.core c k d).onCpu = some t; rw [Function.update_of_ne hd]; exact ho⟩
  rest := hrest

end Klock
end KickOS
