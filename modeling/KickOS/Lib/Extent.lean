import Mathlib.Tactic
import Mathlib.Order.CompletePartialOrder

/-! Extents of whole granules in a space of machine words. -/

namespace Lib.Extent

section Words

variable {w : Nat} {b g p e : BitVec w}

theorem toNat_pos (hb : b ≠ 0) : 0 < b.toNat := Nat.pos_of_ne_zero fun h => hb (BitVec.eq_of_toNat_eq h)

theorem toNat_lit {n : Nat} (hw : 32 ≤ w) (hn : n < 2 ^ 32) : (BitVec.ofNat w n).toNat = n :=
  (BitVec.toNat_ofNat ..).trans (Nat.mod_eq_of_lt (hn.trans_le (Nat.pow_le_pow_right Nat.two_pos hw)))

theorem one_lt_of_toNat_pos (hg : 0 < g.toNat) : (1 : BitVec w).toNat = 1 := by
  have hlt := g.isLt
  rcases w with - | w
  · rw [Nat.pow_zero] at hlt
    omega
  · exact Nat.mod_eq_of_lt (Nat.one_lt_two_pow (Nat.succ_ne_zero w))

theorem toNat_pred (hg : 0 < g.toNat) : (g - 1).toNat = g.toNat - 1 := by
  have h1 := one_lt_of_toNat_pos hg
  have hle : (1 : BitVec w) ≤ g := BitVec.le_def.2 (by omega)
  rw [BitVec.toNat_sub_of_le hle, h1]

theorem and_pred_eq_zero (hg : g.toNat.isPowerOfTwo) : b &&& (g - 1) = 0 ↔ g.toNat ∣ b.toNat := by
  have hp := toNat_pred (Nat.pos_of_isPowerOfTwo hg)
  obtain ⟨k, hk⟩ := hg
  rw [← BitVec.toNat_inj, BitVec.toNat_and, hp, hk, Nat.and_two_pow_sub_one_eq_mod, Nat.dvd_iff_mod_eq_zero]
  rfl

theorem isPowerOfTwo_iff : (g ≠ 0 ∧ g &&& (g - 1) = 0) ↔ g.toNat.isPowerOfTwo := by
  rw [← Nat.ne_zero_and_sub_one_eq_zero_iff_isPowerOfTwo, ← BitVec.toNat_inj.ne]
  refine and_congr_right fun hg => ?_
  rw [← BitVec.toNat_inj, BitVec.toNat_and, toNat_pred (Nat.pos_of_ne_zero hg)]
  rfl

theorem mul_div_cancel_iff (hg : g ≠ 0) : p * g / g = p ↔ p.toNat * g.toNat < 2 ^ w := by
  have hg' : 0 < g.toNat := Nat.pos_of_ne_zero fun h => hg (BitVec.eq_of_toNat_eq h)
  rw [← BitVec.toNat_inj, BitVec.toNat_udiv, BitVec.toNat_mul]
  constructor
  · intro h
    by_contra hn
    have h1 : p.toNat * g.toNat % 2 ^ w < p.toNat * g.toNat := (Nat.mod_lt _ (Nat.two_pow_pos w)).trans_le (Nat.not_lt.1 hn)
    exact absurd h ((Nat.div_lt_iff_lt_mul hg').2 h1).ne
  · intro h
    rw [Nat.mod_eq_of_lt h, Nat.mul_div_cancel _ hg']

theorem add_lt_iff {q : BitVec w} : b + q < b ↔ 2 ^ w ≤ b.toNat + q.toNat := by
  have h1 := b.isLt
  have h2 := q.isLt
  rw [BitVec.lt_def, BitVec.toNat_add]
  constructor
  · intro h
    by_contra hn
    rw [Nat.mod_eq_of_lt (Nat.not_le.1 hn)] at h
    omega
  · intro h
    rw [Nat.mod_eq_sub_mod h, Nat.mod_eq_of_lt (by omega)]
    omega

section Last

variable {q : BitVec w}

theorem last_assoc (b q : BitVec w) : b + q - 1 = b + (q - 1) := by
  rw [BitVec.sub_eq_add_neg, BitVec.sub_eq_add_neg, BitVec.add_assoc]

/-- The last byte of an extent that is not empty is below its first exactly where the extent wraps. -/
theorem last_lt_iff (hq : 0 < q.toNat) : b + q - 1 < b ↔ 2 ^ w < b.toNat + q.toNat := by
  rw [last_assoc, add_lt_iff, toNat_pred hq]
  omega

theorem toNat_last (hq : 0 < q.toNat) (h : b.toNat + q.toNat ≤ 2 ^ w) : (b + q - 1).toNat = b.toNat + q.toNat - 1 := by
  rw [last_assoc, BitVec.toNat_add, toNat_pred hq, Nat.mod_eq_of_lt (by omega)]
  omega

end Last

theorem toNat_and_not_pred (hg : g.toNat.isPowerOfTwo) : (b &&& ~~~(g - 1)).toNat = b.toNat / g.toNat * g.toNat := by
  have hp := toNat_pred (Nat.pos_of_isPowerOfTwo hg)
  obtain ⟨k, hk⟩ := hg
  refine Nat.eq_of_testBit_eq fun j => ?_
  have hm : (g - 1).getLsbD j = decide (j < k) := by
    change (g - 1).toNat.testBit j = _
    rw [hp, hk, Nat.testBit_two_pow_sub_one]
  change (b &&& ~~~(g - 1)).getLsbD j = _
  rw [BitVec.getLsbD_and, BitVec.getLsbD_not, hm, hk, Nat.testBit_mul_two_pow]
  rcases Nat.lt_or_ge j k with h | h
  · rw [decide_eq_true h, decide_eq_false (Nat.not_le.2 h), Bool.not_true, Bool.and_false, Bool.and_false, Bool.false_and]
  · rw [Nat.testBit_div_two_pow, Nat.sub_add_cancel h, decide_eq_false (Nat.not_lt.2 h), decide_eq_true h,
      Bool.not_false, Bool.and_true, Bool.true_and]
    change (b.getLsbD j && decide (j < w)) = b.getLsbD j
    rcases Nat.lt_or_ge j w with hj | hj
    · rw [decide_eq_true hj, Bool.and_true]
    · rw [BitVec.getLsbD_of_ge _ _ hj, Bool.false_and]

/-- The least multiple of `n` from `x` on. -/
def ceilTo (x n : Nat) : Nat := (x + (n - 1)) / n * n

theorem le_ceilTo {x n : Nat} (hn : 0 < n) : x ≤ ceilTo x n := by
  unfold ceilTo
  have h1 := Nat.div_add_mod (x + (n - 1)) n
  have h2 := Nat.mod_lt (x + (n - 1)) hn
  rw [Nat.mul_comm] at h1
  omega

theorem roundUp_toNat (hg : g.toNat.isPowerOfTwo) :
    ((b + (g - 1)) &&& ~~~(g - 1)).toNat = ceilTo b.toNat g.toNat ∧ ceilTo b.toNat g.toNat < 2 ^ w ∨
    ((b + (g - 1)) &&& ~~~(g - 1)) < b ∧ 2 ^ w ≤ ceilTo b.toNat g.toNat := by
  have hpos := Nat.pos_of_isPowerOfTwo hg
  have hp := toNat_pred hpos
  have hlt := g.isLt
  have hb := b.isLt
  rw [BitVec.lt_def, toNat_and_not_pred hg, BitVec.toNat_add, hp, ceilTo]
  rcases Nat.lt_or_ge (b.toNat + (g.toNat - 1)) (2 ^ w) with h | h
  · rw [Nat.mod_eq_of_lt h]
    exact .inl ⟨rfl, (Nat.div_mul_le_self ..).trans_lt h⟩
  · right
    constructor
    · rw [Nat.mod_eq_sub_mod h, Nat.mod_eq_of_lt (by omega)]
      exact (Nat.div_mul_le_self ..).trans_lt (by omega)
    · -- the top of the address space is a multiple itself
      obtain ⟨k, hk⟩ := hg
      have hkw : k ≤ w := by
        rw [hk] at hlt
        exact ((Nat.pow_lt_pow_iff_right Nat.one_lt_two).1 hlt).le
      have hdvd : g.toNat ∣ 2 ^ w := hk ▸ Nat.pow_dvd_pow 2 hkw
      rw [← Nat.div_mul_cancel hdvd]
      exact Nat.mul_le_mul_right _ (Nat.div_le_div_right h)

end Words

section Spans

theorem Ico_disjoint_iff {a b c d : Nat} (h1 : a < b) (h2 : c < d) : Disjoint (Set.Ico a b) (Set.Ico c d) ↔ b ≤ c ∨ d ≤ a := by
  rw [Set.Ico_disjoint_Ico]
  omega

theorem scaled_disjoint_iff {W : Set Nat} {a b lo n : Nat} (h : b ≤ lo) :
    Disjoint W (Set.Ico (a + (lo - b) * 32) (a + (lo - b) * 32 + n * 32)) ↔
      ∀ y ∈ Set.Ico lo (lo + n), Disjoint W (Set.Ico (a + (y - b) * 32) (a + (y - b) * 32 + 32)) := by
  constructor
  · intro hd y hy
    rw [Set.mem_Ico] at hy
    refine hd.mono_right fun x hx => ?_
    rw [Set.mem_Ico] at hx ⊢
    omega
  · intro hall
    rw [Set.disjoint_left]
    intro x hx hxi
    rw [Set.mem_Ico] at hxi
    -- the byte whose copy holds `x`
    obtain ⟨y, hy⟩ : ∃ y, y = lo + (x - (a + (lo - b) * 32)) / 32 := ⟨_, rfl⟩
    have hmem : y ∈ Set.Ico lo (lo + n) := by
      rw [Set.mem_Ico]
      omega
    refine Set.disjoint_left.1 (hall y hmem) hx ?_
    rw [Set.mem_Ico]
    omega

end Spans

end Lib.Extent
