import Mathlib.Tactic

/-! Chains of a partial function.

`next` sends a point to the one it depends on. While no chain returns to its start, every chain leaves a finite set
of points after at most as many steps as the set has points, so a walk along it needs no more fuel than that. -/

namespace Lib.Chain
open Relation
open Function (update update_of_ne update_self)

variable {α : Type*} {next next' : α → Option α} {a b c t : α}

def Step (next : α → Option α) (a b : α) : Prop := next a = some b

/-- `b` is on the chain from `a`. -/
def Reach (next : α → Option α) : α → α → Prop := ReflTransGen (Step next)

def Acyclic (next : α → Option α) : Prop := ∀ a, ¬ TransGen (Step next) a a

theorem Reach.refl (a : α) : Reach next a a := ReflTransGen.refl

theorem reach_iff : Reach next a c ↔ a = c ∨ ∃ b, next a = some b ∧ Reach next b c := by
  constructor
  · intro h
    rcases ReflTransGen.cases_head h with rfl | ⟨b, hab, hbc⟩
    · exact .inl rfl
    · exact .inr ⟨b, hab, hbc⟩
  · rintro (rfl | ⟨b, hab, hbc⟩)
    · exact .refl a
    · exact ReflTransGen.head hab hbc

theorem Acyclic.not_self (h : Acyclic next) (hab : next a = some b) : a ≠ b := by
  rintro rfl
  exact h a (.single hab)

theorem Acyclic.of_sinks (h : Acyclic next) (hs : ∀ a b, next' a = some b → next a = some b ∨ next' b = none) :
    Acyclic next' := by
  -- a closed chain never visits a sink, so each of its steps is an old one
  have old : ∀ {a b}, TransGen (Step next') a b → next' b ≠ none → TransGen (Step next) a b := by
    intro a b hab
    induction hab with
    | single hab =>
      intro hb
      rcases hs _ _ hab with h' | h'
      · exact .single h'
      · exact absurd h' hb
    | tail _ hbc ih =>
      intro hc
      rcases hs _ _ hbc with h' | h'
      · exact (ih (by rw [show next' _ = some _ from hbc]; simp)).tail h'
      · exact absurd h' hc
  intro a ha
  refine h a (old ha ?_)
  obtain ⟨b, hab, -⟩ := TransGen.head'_iff.mp ha
  rw [show next' a = some b from hab]
  simp

theorem Acyclic.add [DecidableEq α] (h : Acyclic next) (ht : ¬ Reach next t c) :
    Acyclic (update next c (some t)) := by
  have split : ∀ {a b}, TransGen (Step (update next c (some t))) a b →
      TransGen (Step next) a b ∨ Reach next a c ∧ Reach next t b := by
    intro a b hab
    induction hab with
    | @single b hab =>
      by_cases hac : a = c
      · subst hac
        simp only [Step, update_self, Option.some.injEq] at hab
        exact .inr ⟨.refl a, hab ▸ .refl _⟩
      · simp only [Step, update_of_ne hac] at hab
        exact .inl (.single hab)
    | @tail b d _ hbd ih =>
      by_cases hbc : b = c
      · subst hbc
        simp only [Step, update_self, Option.some.injEq] at hbd
        rcases ih with ih | ⟨ih, -⟩
        · exact .inr ⟨ih.to_reflTransGen, hbd ▸ .refl _⟩
        · exact .inr ⟨ih, hbd ▸ .refl _⟩
      · simp only [Step, update_of_ne hbc] at hbd
        rcases ih with ih | ⟨ih₁, ih₂⟩
        · exact .inl (ih.tail hbd)
        · exact .inr ⟨ih₁, ReflTransGen.tail ih₂ hbd⟩
  intro a ha
  rcases split ha with ha | ⟨h₁, h₂⟩
  · exact h a ha
  · exact ht (ReflTransGen.trans h₂ h₁)

theorem Acyclic.closes_iff [DecidableEq α] (h : Acyclic next) :
    TransGen (Step (update next c (some t))) c c ↔ Reach next t c := by
  constructor
  · intro hc
    by_contra ht
    exact h.add ht c hc
  · have keep : ∀ {a}, Reach next a c → Reach (update next c (some t)) a c := by
      intro a ha
      induction ha using ReflTransGen.head_induction_on with
      | refl => exact .refl c
      | @head a b hab _ ih =>
        by_cases hac : a = c
        · rw [hac]; exact .refl c
        · exact ReflTransGen.head (by simpa [Step, hac] using hab) ih
    intro ht
    exact TransGen.head' (b := t) (by simp [Step]) (keep ht)

section Rank
open Classical

/-- How many points of `S` are on the chain from `a`. -/
noncomputable def rank (next : α → Option α) (S : Finset α) (a : α) : Nat := (S.filter (Reach next a)).card

theorem rank_le (S : Finset α) (a : α) : rank next S a ≤ S.card := Finset.card_filter_le _ _

theorem rank_lt (h : Acyclic next) {S : Finset α} (ha : a ∈ S) (hab : next a = some b) :
    rank next S b < rank next S a := by
  refine Finset.card_lt_card ⟨fun x hx => ?_, fun hsub => ?_⟩
  · simp only [Finset.mem_filter] at hx ⊢
    exact ⟨hx.1, reach_iff.mpr (.inr ⟨b, hab, hx.2⟩)⟩
  · have hmem : a ∈ S.filter (Reach next b) := hsub (by simp [ha, Reach.refl])
    have hba : Reach next b a := (Finset.mem_filter.mp hmem).2
    exact h a (TransGen.head' hab hba)

end Rank

end Lib.Chain
