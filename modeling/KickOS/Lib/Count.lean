import Mathlib.Tactic

/-! Counting the indices below a bound that satisfy a test, and how one write to the indexed family moves
the count. -/

namespace Lib

/-- How many of `0 .. n - 1` pass the test. -/
def count (n : Nat) (p : Nat → Bool) : Nat := (List.range n).countP p

variable {β : Type*} {n k : Nat} {p q : Nat → Bool}

theorem count_succ : count (n + 1) p = count n p + (p n).toNat := by
  cases h : p n <;> simp [count, List.range_succ, h]

theorem count_congr (h : ∀ i < n, p i = q i) : count n p = count n q := by
  induction n with
  | zero => rfl
  | succ n ih => rw [count_succ, count_succ, ih fun i hi => h i (by omega), h n (by omega)]

theorem count_eq_zero : count n p = 0 ↔ ∀ i < n, p i = false := by
  simp [count]

theorem count_pos : 0 < count n p ↔ ∃ i < n, p i = true := by
  simp [count, List.countP_pos_iff]

theorem count_le : count n p ≤ n := by
  simpa [count] using List.countP_le_length (p := p) (l := List.range n)

theorem count_update (f : Nat → β) (v : β) (r : β → Bool) (hk : k < n) :
    count n (fun i => r (Function.update f k v i)) + (r (f k)).toNat =
      count n (fun i => r (f i)) + (r v).toNat := by
  induction n with
  | zero => omega
  | succ n ih =>
    rw [count_succ, count_succ]
    rcases Nat.lt_or_eq_of_le (Nat.le_of_lt_succ hk) with hlt | rfl
    · rw [Function.update_of_ne (by omega)]
      have := ih hlt
      omega
    · rw [Function.update_self]
      have hrest : count k (fun i => r (Function.update f k v i)) = count k fun i => r (f i) :=
        count_congr fun i hi => by rw [Function.update_of_ne (by omega)]
      omega

theorem count_le_one (h : ∀ i < n, ∀ j < n, p i = true → p j = true → i = j) : count n p ≤ 1 := by
  induction n with
  | zero => simp [count]
  | succ n ih =>
    rw [count_succ]
    cases hp : p n with
    | false =>
      have := ih fun i hi j hj => h i (by omega) j (by omega)
      simpa using this
    | true =>
      have hz : count n p = 0 := count_eq_zero.2 fun i hi => by
        by_contra hne
        have := h i (by omega) n (by omega) (by simpa using hne) hp
        omega
      simp [hz]

end Lib
