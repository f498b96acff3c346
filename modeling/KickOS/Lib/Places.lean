import Mathlib.Tactic

/-! Items kept in places.

Every item is in one place at most, and there once. Steps move items from a place to another, take in new ones and lose
some. -/

namespace Lib

variable {P R : Type} {f g : P → List R} {p q : P}

/-- Each item is in one place at most, and there once. -/
structure Apart (f : P → List R) : Prop where
  nodup : ∀ p, (f p).Nodup
  apart : ∀ p q r, r ∈ f p → r ∈ f q → p = q

theorem Apart.move (h : Apart f) (hrest : ∀ x, x ≠ p → x ≠ q → g x = f x) (hp : (g p).Nodup) (hq : (g q).Nodup)
    (hd : ∀ r ∈ g p, r ∉ g q) (hsub : ∀ r, r ∈ g p ∨ r ∈ g q → (r ∈ f p ∨ r ∈ f q) ∨ ∀ x, r ∉ f x) : Apart g := by
  -- an item of the two places is in no third one
  have hout : ∀ x r, x ≠ p → x ≠ q → r ∈ g x → ¬(r ∈ g p ∨ r ∈ g q) := by
    intro x r hxp hxq hr hin
    rw [hrest x hxp hxq] at hr
    rcases hsub r hin with (hf | hf) | hf
    · exact hxp (h.apart x p r hr hf)
    · exact hxq (h.apart x q r hr hf)
    · exact hf x hr
  refine ⟨fun x => ?_, fun x y r hx hy => ?_⟩
  · by_cases hxp : x = p
    · exact hxp ▸ hp
    · by_cases hxq : x = q
      · exact hxq ▸ hq
      · rw [hrest x hxp hxq]
        exact h.nodup x
  · by_cases hxp : x = p
    · subst hxp
      by_cases hyp : y = x
      · exact hyp.symm
      · by_cases hyq : y = q
        · subst hyq
          exact absurd hy (hd r hx)
        · exact absurd (Or.inl hx) (hout y r hyp hyq hy)
    · by_cases hxq : x = q
      · subst hxq
        by_cases hyp : y = p
        · subst hyp
          exact absurd hx (hd r hy)
        · by_cases hyq : y = x
          · exact hyq.symm
          · exact absurd (Or.inr hx) (hout y r hyp hyq hy)
      · by_cases hyp : y = p
        · subst hyp
          exact absurd (Or.inl hy) (hout x r hxp hxq hx)
        · by_cases hyq : y = q
          · subst hyq
            exact absurd (Or.inr hy) (hout x r hxp hxq hx)
          · rw [hrest x hxp hxq] at hx
            rw [hrest y hyp hyq] at hy
            exact h.apart x y r hx hy

theorem Apart.change (h : Apart f) (hrest : ∀ x, x ≠ p → g x = f x) (hp : (g p).Nodup)
    (hsub : ∀ r ∈ g p, r ∈ f p ∨ ∀ x, r ∉ f x) : Apart g := by
  refine ⟨fun x => ?_, fun x y r hx hy => ?_⟩
  · by_cases hxp : x = p
    · exact hxp ▸ hp
    · rw [hrest x hxp]
      exact h.nodup x
  · have hone : ∀ z, z ≠ p → r ∈ g z → r ∉ g p := by
      intro z hz hr hin
      rw [hrest z hz] at hr
      rcases hsub r hin with hf | hf
      · exact hz (h.apart z p r hr hf)
      · exact hf z hr
    by_cases hxp : x = p
    · by_cases hyp : y = p
      · rw [hxp, hyp]
      · exact absurd (hxp ▸ hx) (hone y hyp hy)
    · by_cases hyp : y = p
      · exact absurd (hyp ▸ hy) (hone x hxp hx)
      · rw [hrest x hxp] at hx
        rw [hrest y hyp] at hy
        exact h.apart x y r hx hy

theorem Apart.congr (h : Apart f) (hg : ∀ x, g x = f x) : Apart g := by
  rw [funext hg]
  exact h

end Lib
