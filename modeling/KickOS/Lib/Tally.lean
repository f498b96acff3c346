import Mathlib.Tactic

/-! Counting distinct items of several kinds, each kind up to a limit. -/

namespace Lib
namespace Tally

variable {κ α : Type*} [DecidableEq κ] [DecidableEq α]

def items (l : List (κ × α)) (k : κ) : Finset α := (l.filterMap fun e => if e.1 = k then some e.2 else none).toFinset

theorem mem_items {l : List (κ × α)} {k : κ} {i : α} : i ∈ items l k ↔ (k, i) ∈ l := by
  simp only [items, List.mem_toFinset, List.mem_filterMap]
  constructor
  · rintro ⟨⟨k', i'⟩, hm, he⟩
    split_ifs at he with hk
    cases he
    rwa [← hk]
  · intro hm
    exact ⟨(k, i), hm, by simp⟩

theorem items_append (l l' : List (κ × α)) (k : κ) : items (l ++ l') k = items l k ∪ items l' k := by
  ext i
  simp [mem_items]

/-- The items counted so far behind the list `l`: all of them, up to the limit of their kind. -/
structure Counted (limit : κ → Nat) (l : List (κ × α)) (seen : κ → Finset α) : Prop where
  sub : ∀ k, seen k ⊆ items l k
  le : ∀ k, (seen k).card ≤ limit k
  all : ∀ k, (seen k).card < limit k → seen k = items l k

variable {limit : κ → Nat} {l : List (κ × α)} {seen : κ → Finset α} {k : κ} {i : α}

theorem counted_nil : Counted limit ([] : List (κ × α)) fun _ => ∅ :=
  ⟨fun _ => Finset.empty_subset _, fun _ => Nat.zero_le _, fun k _ => by simp [items]⟩

theorem Counted.card (h : Counted limit l seen) (k : κ) : (seen k).card = min (limit k) (items l k).card := by
  rcases Nat.lt_or_ge (seen k).card (limit k) with hlt | hge
  · rw [← h.all k hlt]
    omega
  · have h1 := h.le k
    have h2 := Finset.card_le_card (h.sub k)
    omega

theorem Counted.eq (h : Counted limit l seen) (hl : (items l k).card ≤ limit k) : seen k = items l k := by
  refine Finset.eq_of_subset_of_card_le (h.sub k) ?_
  rw [h.card k]
  omega

theorem items_snoc (k' : κ) : items (l ++ [(k, i)]) k' = if k' = k then insert i (items l k) else items l k' := by
  ext j
  by_cases hk : k' = k
  · subst hk
    simp [mem_items, or_comm]
  · simp [mem_items, hk]

theorem Counted.skip (h : Counted limit l seen) (hs : i ∈ seen k ∨ limit k ≤ (seen k).card) :
    Counted limit (l ++ [(k, i)]) seen := by
  refine ⟨fun k' => ?_, h.le, fun k' hk' => ?_⟩
  · rw [items_append]
    exact (h.sub k').trans Finset.subset_union_left
  · rw [items_snoc]
    split_ifs with hk
    · subst hk
      rcases hs with hs | hs
      · rw [← h.all k' hk', Finset.insert_eq_of_mem hs]
      · omega
    · exact h.all k' hk'

theorem Counted.take (h : Counted limit l seen) (hi : i ∉ seen k) (hlt : (seen k).card < limit k) :
    Counted limit (l ++ [(k, i)]) (Function.update seen k (insert i (seen k))) := by
  have hall := h.all k hlt
  refine ⟨fun k' => ?_, fun k' => ?_, fun k' hk' => ?_⟩
  · rw [items_snoc]
    by_cases hk : k' = k
    · subst hk; simp [hall]
    · simpa [hk] using h.sub k'
  · by_cases hk : k' = k
    · subst hk
      rw [Function.update_self, Finset.card_insert_of_notMem hi]
      exact hlt
    · simpa [hk] using h.le k'
  · rw [items_snoc]
    by_cases hk : k' = k
    · subst hk; simp [hall]
    · rw [Function.update_of_ne hk] at hk' ⊢
      rw [if_neg hk]
      exact h.all k' hk'

theorem Counted.fits_iff (h : Counted limit l seen) (hl : (items l k).card ≤ limit k) :
    (i ∈ seen k ∨ (seen k).card < limit k) ↔ (items (l ++ [(k, i)]) k).card ≤ limit k := by
  rw [items_snoc, if_pos rfl, h.eq hl]
  by_cases hi : i ∈ items l k
  · simp [hi, hl]
  · rw [Finset.card_insert_of_notMem hi]
    simp [hi]

end Tally
end Lib
