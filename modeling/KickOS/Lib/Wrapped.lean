import Mathlib.Tactic

/-! Rings of `size` cells with two offsets that wrap at the end, one cell kept free.

`Queued` says what list stands between the two offsets. A store at the write offset that leaves one cell free appends,
and the read offset takes the first element; equal offsets mean that the ring is empty. -/

namespace Lib.Wrapped

variable {α : Type*}

/-- The offset behind `i`. -/
def next (size i : Nat) : Nat := if size ≤ i + 1 then 0 else i + 1

/-- The list `q` stands in the cells from `rd` to `wr`. -/
structure Queued (size : Nat) (cell : Nat → α) (rd wr : Nat) (q : List α) : Prop where
  free : q.length < size
  lt : rd < size
  wr_eq : wr = (rd + q.length) % size
  at_cell : ∀ k, (hk : k < q.length) → cell ((rd + k) % size) = q[k]

theorem next_eq {size i : Nat} (hi : i < size) : next size i = (i + 1) % size := by
  unfold next
  split_ifs with h
  · obtain rfl : size = i + 1 := by omega
    rw [Nat.mod_self]
  · rw [Nat.mod_eq_of_lt (by omega)]

namespace Queued

variable {size rd wr : Nat} {cell : Nat → α} {q : List α} {x : α}

theorem wr_lt (h : Queued size cell rd wr q) : wr < size := by
  rw [h.wr_eq]
  exact Nat.mod_lt _ (by have := h.lt; omega)

theorem empty (hrd : rd < size) : Queued size cell rd rd [] where
  free := by simp; omega
  lt := hrd
  wr_eq := by rw [List.length_nil, Nat.add_zero, Nat.mod_eq_of_lt hrd]
  at_cell := by simp

theorem cell_ne {k m : Nat} (hkm : k < m) (hm : m < size) : (rd + k) % size ≠ (rd + m) % size := by
  intro heq
  have hdvd : size ∣ (rd + m) - (rd + k) := (Nat.modEq_iff_dvd' (by omega)).mp heq
  have := Nat.le_of_dvd (by omega) hdvd
  omega

theorem eq_nil (h : Queued size cell rd wr q) : rd = wr ↔ q = [] := by
  constructor
  · intro heq
    by_contra hne
    have hpos := List.length_pos_of_ne_nil hne
    have hcell : (rd + 0) % size ≠ (rd + q.length) % size := cell_ne hpos h.free
    rw [Nat.add_zero, Nat.mod_eq_of_lt h.lt, ← h.wr_eq] at hcell
    exact hcell heq
  · rintro rfl
    rw [h.wr_eq, List.length_nil, Nat.add_zero, Nat.mod_eq_of_lt h.lt]

theorem push (h : Queued size cell rd wr q) (hfree : q.length + 1 < size) :
    Queued size (Function.update cell wr x) rd (next size wr) (q ++ [x]) where
  free := by simpa using hfree
  lt := h.lt
  wr_eq := by
    rw [next_eq h.wr_lt, h.wr_eq, List.length_append, List.length_singleton, Nat.mod_add_mod, Nat.add_assoc]
  at_cell := by
    intro k hk
    rw [List.length_append, List.length_singleton] at hk
    obtain hlt | rfl : k < q.length ∨ k = q.length := by omega
    · have hne : (rd + k) % size ≠ wr := h.wr_eq ▸ cell_ne hlt h.free
      rw [Function.update_of_ne hne, List.getElem_append_left hlt, h.at_cell k hlt]
    · rw [← h.wr_eq, Function.update_self, List.getElem_append_right (le_refl _)]
      simp

theorem head (h : Queued size cell rd wr (x :: q)) : cell rd = x := by
  have := h.at_cell 0 (by simp)
  rwa [Nat.add_zero, Nat.mod_eq_of_lt h.lt] at this

theorem pop (h : Queued size cell rd wr (x :: q)) : Queued size cell (next size rd) wr q where
  free := by
    have := h.free
    rw [List.length_cons] at this
    omega
  lt := by
    rw [next_eq h.lt]
    exact Nat.mod_lt _ (by have := h.lt; omega)
  wr_eq := by
    rw [h.wr_eq, next_eq h.lt, List.length_cons, Nat.mod_add_mod]
    congr 1
    omega
  at_cell := by
    intro k hk
    have := h.at_cell (k + 1) (by simpa using hk)
    rw [next_eq h.lt, Nat.mod_add_mod, show rd + 1 + k = rd + (k + 1) by omega, this, List.getElem_cons_succ]

theorem left {l : List α} (h : Queued size cell rd wr (q ++ l)) : Queued size cell rd ((rd + q.length) % size) q where
  free := by
    have := h.free
    rw [List.length_append] at this
    omega
  lt := h.lt
  wr_eq := rfl
  at_cell := by
    intro k hk
    rw [h.at_cell k (by rw [List.length_append]; omega), List.getElem_append_left hk]

theorem right {l : List α} {mid : Nat} (h : Queued size cell rd wr (q ++ l)) (hmid : Queued size cell rd mid q) :
    Queued size cell mid wr l := by
  induction q generalizing rd with
  | nil =>
    rw [← hmid.eq_nil.mpr rfl]
    exact h
  | cons x q ih => exact ih h.pop hmid.pop

end Queued

end Lib.Wrapped
