import Mathlib.Tactic

/-! A ticket lock.

Whoever wants the lock draws the next number and waits until that number is served; a release serves the one behind.
Nothing in a release looks at who makes it, so that one holds the lock at a time rests on only its holder releasing
it. -/

namespace Lib
open Function (update update_of_ne update_self)

structure Ticket (ι : Type*) where
  next : Nat
  serving : Nat
  ticket : ι → Option Nat
  holding : ι → Bool

namespace Ticket

variable {ι : Type*} [DecidableEq ι] {l : Ticket ι} {i j : ι} {t : Nat}

def free (ι : Type*) : Ticket ι := ⟨0, 0, fun _ => none, fun _ => false⟩

def draw (l : Ticket ι) (i : ι) : Ticket ι :=
  { l with next := l.next + 1, ticket := update l.ticket i (some l.next) }

def turn (l : Ticket ι) (i : ι) : Bool := l.ticket i = some l.serving

def gain (l : Ticket ι) (i : ι) : Ticket ι := { l with holding := update l.holding i true }

def release (l : Ticket ι) (i : ι) : Ticket ι :=
  { l with
    serving := l.serving + 1
    ticket := update l.ticket i none
    holding := update l.holding i false }

/-! ### Fields -/

@[simp] theorem draw_ticket_self : (l.draw i).ticket i = some l.next := update_self ..

theorem draw_ticket_of_ne (h : j ≠ i) : (l.draw i).ticket j = l.ticket j := update_of_ne h ..

@[simp] theorem draw_holding : (l.draw i).holding = l.holding := rfl

@[simp] theorem gain_holding_self : (l.gain i).holding i = true := update_self ..

theorem gain_holding_of_ne (h : j ≠ i) : (l.gain i).holding j = l.holding j := update_of_ne h ..

@[simp] theorem gain_ticket : (l.gain i).ticket = l.ticket := rfl

@[simp] theorem release_ticket_self : (l.release i).ticket i = none := update_self ..

theorem release_ticket_of_ne (h : j ≠ i) : (l.release i).ticket j = l.ticket j := update_of_ne h ..

@[simp] theorem release_holding_self : (l.release i).holding i = false := update_self ..

theorem release_holding_of_ne (h : j ≠ i) : (l.release i).holding j = l.holding j := update_of_ne h ..

/-! ### Exclusion -/

/-- The numbers drawn are distinct and not served yet, and a holder's is the one being served. -/
structure Ok (l : Ticket ι) : Prop where
  le : l.serving ≤ l.next
  range : ∀ {i t}, l.ticket i = some t → l.serving ≤ t ∧ t < l.next
  inj : ∀ {i j t}, l.ticket i = some t → l.ticket j = some t → i = j
  holder : ∀ {i}, l.holding i = true → l.ticket i = some l.serving

omit [DecidableEq ι] in
theorem ok_free : (free ι).Ok where
  le := le_rfl
  range := fun h => (Option.some_ne_none _ h.symm).elim
  inj := fun h => (Option.some_ne_none _ h.symm).elim
  holder := fun h => (Bool.false_ne_true h).elim

omit [DecidableEq ι] in
theorem Ok.unique (h : l.Ok) (hi : l.holding i = true) (hj : l.holding j = true) : i = j := h.inj (h.holder hi) (h.holder hj)

theorem Ok.draw (h : l.Ok) (hi : l.ticket i = none) : (l.draw i).Ok where
  le := h.le.trans (Nat.le_succ _)
  range := fun {k t} hk => by
    show l.serving ≤ t ∧ t < l.next + 1
    by_cases hki : k = i
    · subst hki
      obtain rfl := Option.some.inj (draw_ticket_self.symm.trans hk)
      exact ⟨h.le, Nat.lt_succ_self _⟩
    · obtain ⟨h₁, h₂⟩ := h.range ((draw_ticket_of_ne hki).symm.trans hk)
      exact ⟨h₁, h₂.trans (Nat.lt_succ_self _)⟩
  inj := fun {k j t} hk hj => by
    by_cases hki : k = i <;> by_cases hji : j = i
    · exact hki.trans hji.symm
    · subst hki
      obtain rfl := Option.some.inj (draw_ticket_self.symm.trans hk)
      exact absurd (h.range ((draw_ticket_of_ne hji).symm.trans hj)).2 (Nat.lt_irrefl _)
    · subst hji
      obtain rfl := Option.some.inj (draw_ticket_self.symm.trans hj)
      exact absurd (h.range ((draw_ticket_of_ne hki).symm.trans hk)).2 (Nat.lt_irrefl _)
    · exact h.inj ((draw_ticket_of_ne hki).symm.trans hk) ((draw_ticket_of_ne hji).symm.trans hj)
  holder := fun {k} hk => by
    have hne : k ≠ i := by
      rintro rfl
      exact Option.some_ne_none _ ((h.holder hk).symm.trans hi)
    exact (draw_ticket_of_ne hne).trans (h.holder hk)

theorem Ok.gain (h : l.Ok) (hi : l.turn i = true) : (l.gain i).Ok where
  le := h.le
  range := h.range
  inj := h.inj
  holder := fun {k} hk => by
    by_cases hki : k = i
    · subst hki
      exact of_decide_eq_true hi
    · exact h.holder ((gain_holding_of_ne hki).symm.trans hk)

theorem Ok.release (h : l.Ok) (hi : l.holding i = true) : (l.release i).Ok := by
  have hmine := h.holder hi
  have hothers : ∀ {k t}, (l.release i).ticket k = some t → k ≠ i ∧ l.ticket k = some t := by
    intro k t hk
    have hne : k ≠ i := by
      rintro rfl
      exact Option.some_ne_none _ (hk.symm.trans release_ticket_self)
    exact ⟨hne, (release_ticket_of_ne hne).symm.trans hk⟩
  refine ⟨(h.range hmine).2, fun {k t} hk => ?_, fun {k j t} hk hj => h.inj (hothers hk).2 (hothers hj).2, fun {k} hk => ?_⟩
  · obtain ⟨hne, hk⟩ := hothers hk
    obtain ⟨h₁, h₂⟩ := h.range hk
    -- another's number is not the one being served
    have : t ≠ l.serving := by
      rintro rfl
      exact hne (h.inj hk hmine)
    exact ⟨by show l.serving + 1 ≤ t; omega, h₂⟩
  · have hne : k ≠ i := by
      rintro rfl
      exact Bool.false_ne_true (release_holding_self.symm.trans hk)
    exact absurd (h.unique ((release_holding_of_ne hne).symm.trans hk) hi) hne

end Ticket
end Lib
