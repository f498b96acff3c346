import Mathlib.Tactic

/-! Marks that are meaningful for one epoch only, with an epoch that comes round.

An epoch runs through `1 .. P` and back to 1. Every cell has a position below `M`, and each new epoch clears the cells
of one position in turn. When a round of the positions is shorter than a round of the epochs, a new epoch meets no mark
of its own value. -/

namespace Lib
namespace Epoch

/-- The epoch behind `e`. -/
def next (P e : Nat) : Nat := e % P + 1

/-- How many epochs away the clearing of position `p` is, with `at` the position that is next. -/
def away (M p sweep : Nat) : Nat := (p + M - sweep) % M

/-- What a mark may be: cleared, or as old as its position has been left alone. -/
def Aged (P M epoch sweep pos mark : Nat) : Prop :=
  mark = 0 ∨ 1 ≤ mark ∧ mark ≤ P ∧ ∃ a, a + away M pos sweep + 1 ≤ M ∧ epoch = (mark - 1 + a) % P + 1

section
variable {P M epoch sweep pos mark : Nat}

theorem next_pos : 1 ≤ next P epoch := Nat.le_add_left 1 _

theorem next_le (hP : 0 < P) : next P epoch ≤ P := Nat.mod_lt epoch hP

theorem Aged.ne_next (h : Aged P M epoch sweep pos mark) (hM : M < P) : mark ≠ next P epoch := by
  rcases h with rfl | ⟨h1, h2, a, ha, rfl⟩
  · simp [next]
  · intro heq
    have hnext : next P ((mark - 1 + a) % P + 1) = (mark - 1 + (a + 1)) % P + 1 := by
      simp only [next, Nat.mod_add_mod]
      rfl
    rw [hnext] at heq
    -- a full round of the epochs is longer than the mark's age
    have hmod : (mark - 1 + (a + 1)) % P = mark - 1 := by omega
    rcases Nat.lt_or_ge (mark - 1 + (a + 1)) P with hlt | hge
    · rw [Nat.mod_eq_of_lt hlt] at hmod
      omega
    · rw [Nat.mod_eq_sub_mod hge, Nat.mod_eq_of_lt (by omega)] at hmod
      omega

theorem away_next (hp : pos < M) (hs : sweep < M) (hne : pos ≠ sweep) :
    away M pos ((sweep + 1) % M) + 1 = away M pos sweep := by
  have hmod : ∀ x, x < M → (x + M) % M = x := fun x hx => by rw [Nat.add_mod_right, Nat.mod_eq_of_lt hx]
  simp only [away]
  rcases Nat.lt_or_ge (sweep + 1) M with hlt | hge
  · rw [Nat.mod_eq_of_lt hlt]
    rcases Nat.lt_or_ge pos sweep with hps | hps
    · rw [Nat.mod_eq_of_lt (by omega), Nat.mod_eq_of_lt (by omega)]
      omega
    · rw [show pos + M - (sweep + 1) = pos - (sweep + 1) + M by omega, show pos + M - sweep = pos - sweep + M by omega,
        hmod _ (by omega), hmod _ (by omega)]
      omega
  · have hz : (sweep + 1) % M = 0 := by
      rw [show sweep + 1 = M by omega, Nat.mod_self]
    rw [hz, Nat.sub_zero, hmod _ hp, Nat.mod_eq_of_lt (by omega)]
    omega

theorem Aged.next (h : Aged P M epoch sweep pos mark) (hp : pos < M) (hs : sweep < M) (hne : pos ≠ sweep) :
    Aged P M (next P epoch) ((sweep + 1) % M) pos mark := by
  rcases h with rfl | ⟨h1, h2, a, ha, rfl⟩
  · exact .inl rfl
  · have := away_next hp hs hne
    refine .inr ⟨h1, h2, a + 1, by omega, ?_⟩
    simp only [Epoch.next, Nat.mod_add_mod]
    rfl

theorem aged_self (h1 : 1 ≤ epoch) (h2 : epoch ≤ P) (hM : 0 < M) : Aged P M epoch sweep pos epoch := by
  refine .inr ⟨h1, h2, 0, ?_, ?_⟩
  · have : away M pos sweep < M := Nat.mod_lt _ hM
    omega
  · rw [Nat.add_zero, Nat.mod_eq_of_lt (by omega)]
    omega

end

end Epoch
end Lib
