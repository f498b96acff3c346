import KickOS.Lib.Chain

/-! Priorities donated along chains.

Every point has a base and takes the highest of it and of what the points in front of it have. `raise` and `lower`
walk one chain after a point joined it or left it; each stops at the first point that is right already, and every
other point is right again once the walk ends. -/

namespace Lib.Donation
open Lib.Chain
open Function (update update_of_ne update_self)

variable {α : Type*} [DecidableEq α] {base : α → Nat} {next next' : α → Option α} {pr : α → Nat} {A : α → Prop}
  {o u : α} {p n : Nat}

/-- `n` is no less than the base of `u` and than what every point in front of it has. -/
def Owed (base : α → Nat) (next : α → Option α) (pr : α → Nat) (u : α) (n : Nat) : Prop :=
  base u ≤ n ∧ ∀ x, next x = some u → pr x ≤ n

/-- `u` has exactly what it is owed. -/
def Settled (base : α → Nat) (next : α → Option α) (pr : α → Nat) (u : α) : Prop :=
  ∀ n, pr u ≤ n ↔ Owed base next pr u n

/-- Raise the points of a chain to `p`, up to the first that has it. -/
def raise (next : α → Option α) (p : Nat) : Nat → (α → Nat) → α → α → Nat
  | 0, pr, _ => pr
  | fuel + 1, pr, o =>
    if p ≤ pr o then pr
    else
      match next o with
      | none => update pr o p
      | some o' => raise next p fuel (update pr o p) o'

/-- Give the points of a chain what they are owed, up to the first that has it. -/
def lower (eff : (α → Nat) → α → Nat) (next : α → Option α) : Nat → (α → Nat) → α → α → Nat
  | 0, pr, _ => pr
  | fuel + 1, pr, o =>
    if eff pr o = pr o then pr
    else
      match next o with
      | none => update pr o (eff pr o)
      | some o' => lower eff next fuel (update pr o (eff pr o)) o'

theorem owed_update (hu : next o ≠ some u) (q : Nat) :
    Owed base next (update pr o q) u n ↔ Owed base next pr u n := by
  refine and_congr_right fun _ => forall_congr' fun x => imp_congr_right fun hx => ?_
  have hxo : x ≠ o := fun e => hu (e ▸ hx)
  rw [update_of_ne hxo]

theorem settled_update (h : Settled base next pr u) (huo : u ≠ o) (hu : next o ≠ some u) (q : Nat) :
    Settled base next (update pr o q) u := fun n => by
  rw [update_of_ne huo, owed_update hu]
  exact h n

theorem raise_settled (hac : Acyclic next) {S : Finset α} (hS : ∀ a b, next a = some b → a ∈ S) :
    ∀ (fuel : Nat) (pr : α → Nat) (o : α), rank next S o < fuel →
      (∀ u, A u → u ≠ o → Settled base next pr u) → (A o → ∀ n, max (pr o) p ≤ n ↔ Owed base next pr o n) →
      ∀ u, A u → Settled base next (raise next p fuel pr o) u := by
  intro fuel
  induction fuel with
  | zero => intro pr o hf; exact absurd hf (Nat.not_lt_zero _)
  | succ fuel ih =>
    intro pr o hf hother ho
    unfold raise
    split_ifs with hp
    · -- it has `p` already, so it was owed nothing more
      intro u hu n
      by_cases huo : u = o
      · subst huo
        rw [← ho hu n, max_eq_left hp]
      · exact hother u hu huo n
    · have hlt : pr o < p := Nat.lt_of_not_le hp
      have hself : next o ≠ some o := fun e => hac.not_self e rfl
      have hnew : A o → Settled base next (update pr o p) o := fun hA n => by
        rw [update_self, owed_update hself, ← ho hA n, max_eq_right hlt.le]
      cases hn : next o with
      | none =>
        intro u hu
        by_cases huo : u = o
        · subst huo; exact hnew hu
        · exact settled_update (hother u hu huo) huo (by rw [hn]; simp) p
      | some o' =>
        have hoo : o' ≠ o := fun e => hac.not_self hn e.symm
        have hr := rank_lt hac (hS o o' hn) hn
        refine ih _ o' (by omega) (fun u hu huo' => ?_) fun hA n => ?_
        · by_cases huo : u = o
          · subst huo; exact hnew hu
          · exact settled_update (hother u hu huo) huo (by rw [hn]; exact fun e => huo' (Option.some.inj e).symm) p
        · rw [update_of_ne hoo, max_le_iff, hother o' hA hoo n]
          constructor
          · rintro ⟨⟨hb, hx⟩, hpn⟩
            refine ⟨hb, fun x hxo' => ?_⟩
            by_cases hxo : x = o
            · subst hxo; rwa [update_self]
            · rw [update_of_ne hxo]; exact hx x hxo'
          · rintro ⟨hb, hx⟩
            have hpn : p ≤ n := by simpa using hx o hn
            refine ⟨⟨hb, fun x hxo' => ?_⟩, hpn⟩
            by_cases hxo : x = o
            · subst hxo; exact hlt.le.trans hpn
            · simpa [update_of_ne hxo] using hx x hxo'

theorem lower_settled {eff : (α → Nat) → α → Nat} (heff : ∀ pr u n, eff pr u ≤ n ↔ Owed base next pr u n)
    (hac : Acyclic next) {S : Finset α} (hS : ∀ a b, next a = some b → a ∈ S) :
    ∀ (fuel : Nat) (pr : α → Nat) (o : α), rank next S o < fuel →
      (∀ u, A u → u ≠ o → Settled base next pr u) →
      ∀ u, A u → Settled base next (lower eff next fuel pr o) u := by
  intro fuel
  induction fuel with
  | zero => intro pr o hf; exact absurd hf (Nat.not_lt_zero _)
  | succ fuel ih =>
    intro pr o hf hother
    unfold lower
    split_ifs with hp
    · intro u hu n
      by_cases huo : u = o
      · subst huo; rw [← hp]; exact heff pr u n
      · exact hother u hu huo n
    · have hself : next o ≠ some o := fun e => hac.not_self e rfl
      have hnew : Settled base next (update pr o (eff pr o)) o := fun n => by
        rw [update_self, owed_update hself]; exact heff pr o n
      have hold : ∀ u, A u → next o ≠ some u → Settled base next (update pr o (eff pr o)) u := fun u hu hnu => by
        by_cases huo : u = o
        · subst huo; exact hnew
        · exact settled_update (hother u hu huo) huo hnu _
      cases hn : next o with
      | none => exact fun u hu => hold u hu (by rw [hn]; simp)
      | some o' =>
        have hr := rank_lt hac (hS o o' hn) hn
        exact ih _ o' (by omega) fun u hu huo' => hold u hu (by rw [hn]; exact fun e => huo' (Option.some.inj e).symm)

theorem raise_congr : ∀ (fuel : Nat) (pr : α → Nat) (o : α), (∀ a, Reach next o a → next' a = next a) →
    raise next' p fuel pr o = raise next p fuel pr o := by
  intro fuel
  induction fuel with
  | zero => intro pr o _; rfl
  | succ fuel ih =>
    intro pr o h
    simp only [raise, h o (.refl o)]
    split_ifs
    · rfl
    · cases hn : next o with
      | none => rfl
      | some o' => exact ih _ o' fun a ha => h a (reach_iff.mpr (.inr ⟨o', hn, ha⟩))

theorem lower_congr {eff : (α → Nat) → α → Nat} : ∀ (fuel : Nat) (pr : α → Nat) (o : α),
    (∀ a, Reach next o a → next' a = next a) → lower eff next' fuel pr o = lower eff next fuel pr o := by
  intro fuel
  induction fuel with
  | zero => intro pr o _; rfl
  | succ fuel ih =>
    intro pr o h
    simp only [lower, h o (.refl o)]
    split_ifs
    · rfl
    · cases hn : next o with
      | none => rfl
      | some o' => exact ih _ o' fun a ha => h a (reach_iff.mpr (.inr ⟨o', hn, ha⟩))

end Lib.Donation
