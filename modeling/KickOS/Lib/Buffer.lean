import Mathlib.Tactic

/-! Byte runs in a buffer, and moving them in place.

A buffer is its content by position. `Stands b at l` says that the list `l` stands in it from `at` on. The two ways of
moving runs in place are a copy to a lower address, front first, and a reversal, of which three swap two runs that lie
side by side. -/

namespace Lib
namespace Buffer

variable {α : Type*} {b b' : Nat → α} {lo hi dst src n i : Nat} {l m : List α} {x : α}

/-- The list stands in the buffer from a position on. -/
def Stands (b : Nat → α) : Nat → List α → Prop
  | _, [] => True
  | place, x :: l => b place = x ∧ Stands b (place + 1) l

/-- The buffers agree outside `[lo, hi)`. -/
def SameOutside (b b' : Nat → α) (lo hi : Nat) : Prop := ∀ i, i < lo ∨ hi ≤ i → b' i = b i

def slice (b : Nat → α) (lo n : Nat) : List α := (List.range n).map fun i => b (lo + i)

def put (b : Nat → α) (i : Nat) (x : α) : Nat → α := fun j => if j = i then x else b j

/-- Store the elements one after the other. -/
def putAll (b : Nat → α) : Nat → List α → Nat → α
  | _, [] => b
  | place, x :: l => putAll (put b place x) (place + 1) l

/-- Copy `n` elements from `src` down to `dst`, front first. -/
def moveDown (b : Nat → α) (dst src : Nat) : Nat → Nat → α
  | 0 => b
  | n + 1 => moveDown (put b dst (b src)) (dst + 1) (src + 1) n

/-- Reverse the `n` elements from `lo` on, by swaps from both ends. -/
def reverse (b : Nat → α) (lo : Nat) : Nat → Nat → α
  | 0 => b
  | 1 => b
  | n + 2 => reverse (put (put b lo (b (lo + n + 1))) (lo + n + 1) (b lo)) (lo + 1) n

/-! ### Runs -/

@[simp] theorem stands_nil : Stands b lo [] := trivial

theorem stands_append : Stands b lo (l ++ m) ↔ Stands b lo l ∧ Stands b (lo + l.length) m := by
  induction l generalizing lo with
  | nil => simp
  | cons x l ih =>
    simp only [List.cons_append, Stands, ih, List.length_cons, and_assoc]
    rw [show lo + 1 + l.length = lo + (l.length + 1) by omega]

theorem Stands.congr (h : Stands b lo l) (hb : ∀ i, lo ≤ i → i < lo + l.length → b' i = b i) : Stands b' lo l := by
  induction l generalizing lo with
  | nil => trivial
  | cons x l ih =>
    rw [List.length_cons] at hb
    refine ⟨(hb lo le_rfl (by omega)).trans h.1, ih h.2 fun i h₁ h₂ => hb i (by omega) (by omega)⟩

theorem Stands.getElem (h : Stands b lo l) (hi : i < l.length) : b (lo + i) = l[i] := by
  induction l generalizing lo i with
  | nil => exact absurd hi (Nat.not_lt_zero i)
  | cons x l ih =>
    cases i with
    | zero => exact h.1
    | succ i =>
      rw [List.getElem_cons_succ, ← ih h.2 (Nat.lt_of_succ_lt_succ hi)]
      congr 1
      omega

theorem Stands.below (h : Stands b lo l) {hi' : Nat} (hs : SameOutside b b' hi hi') (hle : lo + l.length ≤ hi) : Stands b' lo l :=
  h.congr fun i _ h₂ => hs i (Or.inl (by omega))

theorem Stands.above (h : Stands b lo l) {lo' : Nat} (hs : SameOutside b b' lo' hi) (hle : hi ≤ lo) : Stands b' lo l :=
  h.congr fun i h₁ _ => hs i (Or.inr (by omega))

theorem stands_slice : Stands b lo (slice b lo n) := by
  induction n generalizing lo with
  | zero => trivial
  | succ n ih =>
    have hcons : slice b lo (n + 1) = b lo :: slice b (lo + 1) n := by
      unfold slice
      rw [List.range_succ_eq_map, List.map_cons, List.map_map]
      refine congrArg _ (List.map_congr_left fun i _ => ?_)
      rw [Function.comp_apply, show lo + (i + 1) = lo + 1 + i by omega]
    rw [hcons]
    exact ⟨rfl, ih⟩

theorem length_slice : (slice b lo n).length = n := by simp [slice]

theorem Stands.unique (h : Stands b lo l) (h' : Stands b lo m) (hlen : l.length = m.length) : l = m := by
  induction l generalizing lo m with
  | nil => exact (List.length_eq_zero_iff.mp hlen.symm).symm
  | cons x l ih =>
    obtain ⟨y, m, rfl⟩ := List.exists_cons_of_length_eq_add_one hlen.symm
    obtain ⟨hx, hl⟩ := h
    obtain ⟨hy, hm⟩ := h'
    rw [hx.symm.trans hy, ih hl hm (by simpa using hlen)]

theorem Stands.slice_eq (h : Stands b lo l) : slice b lo l.length = l :=
  stands_slice.unique h length_slice

/-! ### Stores -/

theorem put_same : put b i x i = x := if_pos rfl

theorem put_other {j : Nat} (h : j ≠ i) : put b i x j = b j := if_neg h

theorem sameOutside_refl : SameOutside b b lo hi := fun _ _ => rfl

theorem SameOutside.trans {b'' : Nat → α} (h : SameOutside b b' lo hi) (h' : SameOutside b' b'' lo hi) :
    SameOutside b b'' lo hi :=
  fun i hi => (h' i hi).trans (h i hi)

theorem SameOutside.mono {lo' hi' : Nat} (h : SameOutside b b' lo hi) (hlo : lo' ≤ lo) (hhi : hi ≤ hi') :
    SameOutside b b' lo' hi' :=
  fun i hi => h i (by omega)

theorem sameOutside_put (h₁ : lo ≤ i) (h₂ : i < hi) : SameOutside b (put b i x) lo hi := fun j hj => put_other (by omega)

theorem putAll_spec (b : Nat → α) (lo : Nat) (l : List α) :
    Stands (putAll b lo l) lo l ∧ SameOutside b (putAll b lo l) lo (lo + l.length) := by
  induction l generalizing b lo with
  | nil => exact ⟨trivial, sameOutside_refl⟩
  | cons x l ih =>
    obtain ⟨hst, hout⟩ := ih (put b lo x) (lo + 1)
    rw [List.length_cons]
    refine ⟨⟨?_, hst⟩, (sameOutside_put le_rfl (by omega)).trans (hout.mono (by omega) (by omega))⟩
    exact (hout lo (Or.inl (by omega))).trans put_same

/-- The run stands at the lower address, and nothing outside what it now covers has changed. -/
theorem moveDown_spec (h : Stands b src l) (hle : dst ≤ src) :
    Stands (moveDown b dst src l.length) dst l ∧ SameOutside b (moveDown b dst src l.length) dst (dst + l.length) := by
  induction l generalizing b dst src with
  | nil => exact ⟨trivial, sameOutside_refl⟩
  | cons x l ih =>
    obtain ⟨rfl, hl⟩ := h
    have hrest : Stands (put b dst (b src)) (src + 1) l := hl.congr fun i h₁ _ => put_other (by omega)
    obtain ⟨hst, hout⟩ := ih hrest (by omega : dst + 1 ≤ src + 1)
    rw [List.length_cons]
    refine ⟨⟨?_, hst⟩, (sameOutside_put le_rfl (by omega)).trans (hout.mono (by omega) (by omega))⟩
    exact (hout dst (Or.inl (by omega))).trans put_same

theorem reverse_spec (h : Stands b lo l) :
    Stands (reverse b lo l.length) lo l.reverse ∧ SameOutside b (reverse b lo l.length) lo (lo + l.length) := by
  induction l using List.bidirectionalRec generalizing b lo with
  | nil => exact ⟨trivial, sameOutside_refl⟩
  | singleton x => exact ⟨h, sameOutside_refl⟩
  | cons_append x mid z ih =>
    -- the two ends, and the run between them
    obtain ⟨hx, hmid⟩ := h
    obtain ⟨hmid, hz⟩ := stands_append.mp hmid
    have hz : b (lo + mid.length + 1) = z := by
      rw [show lo + mid.length + 1 = lo + 1 + mid.length by omega]
      exact hz.1
    have hin : Stands (put (put b lo (b (lo + mid.length + 1))) (lo + mid.length + 1) (b lo)) (lo + 1) mid :=
      hmid.congr fun i h₁ h₂ => by rw [put_other (by omega), put_other (by omega)]
    obtain ⟨hst, hout⟩ := ih hin
    have hlen : (x :: (mid ++ [z])).length = mid.length + 2 := by simp
    have hrev : (x :: (mid ++ [z])).reverse = z :: (mid.reverse ++ [x]) := by simp
    rw [hlen, hrev]
    refine ⟨⟨?_, stands_append.mpr ⟨hst, ?_, trivial⟩⟩, ?_⟩
    · rw [reverse, hout lo (Or.inl (by omega)), put_other (by omega), put_same, hz]
    · rw [reverse, List.length_reverse, hout _ (Or.inr (by omega)), show lo + 1 + mid.length = lo + mid.length + 1 by omega,
        put_same, hx]
    · refine SameOutside.trans ?_ (hout.mono (by omega) (by omega))
      exact (sameOutside_put le_rfl (by omega)).trans (sameOutside_put (by omega) (by omega))

/-- Three reversals swap two runs that lie side by side. -/
def rotate (b : Nat → α) (lo mid hi : Nat) : Nat → α :=
  reverse (reverse (reverse b lo (mid - lo)) mid (hi - mid)) lo (hi - lo)

theorem rotate_spec (h : Stands b lo (l ++ m)) :
    Stands (rotate b lo (lo + l.length) (lo + l.length + m.length)) lo (m ++ l) ∧
      SameOutside b (rotate b lo (lo + l.length) (lo + l.length + m.length)) lo (lo + l.length + m.length) := by
  obtain ⟨hl, hm⟩ := stands_append.mp h
  obtain ⟨h₁, o₁⟩ := reverse_spec hl
  obtain ⟨h₂, o₂⟩ := reverse_spec (hm.above o₁ le_rfl)
  have hboth : Stands (reverse (reverse b lo l.length) (lo + l.length) m.length) lo (l.reverse ++ m.reverse) :=
    stands_append.mpr ⟨h₁.below o₂ (by simp), by simpa using h₂⟩
  obtain ⟨h₃, o₃⟩ := reverse_spec hboth
  simp only [List.length_append, List.length_reverse, List.reverse_append, List.reverse_reverse] at h₃ o₃
  have hrot : rotate b lo (lo + l.length) (lo + l.length + m.length) =
      reverse (reverse (reverse b lo l.length) (lo + l.length) m.length) lo (l.length + m.length) := by
    rw [rotate, Nat.add_sub_cancel_left, Nat.add_sub_cancel_left, Nat.add_assoc, Nat.add_sub_cancel_left]
  rw [hrot]
  refine ⟨h₃, ?_⟩
  refine ((o₁.mono le_rfl (by omega)).trans (o₂.mono (by omega) le_rfl)).trans (o₃.mono le_rfl (by omega))

end Buffer
end Lib
