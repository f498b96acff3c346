import KickOS.Lib.Extent

/-! Sweeps for a free place or for a run of free places, over marks that are read a word at a time. -/

namespace Lib.Sweep

open Extent

section Words

variable {w j : Nat} {v : BitVec w}

theorem and_pred_lt (hv : v ≠ 0) : (v &&& (v - 1)).toNat < v.toNat := by
  have hpos := toNat_pos hv
  rw [BitVec.toNat_and, toNat_pred hpos]
  exact Nat.and_le_right.trans_lt (Nat.sub_lt hpos Nat.one_pos)

theorem ctz_lt (hv : v ≠ 0) : v.ctz.toNat < w := by
  by_contra h
  have h1 := BitVec.getLsbD_true_ctz_of_ne_zero hv
  rw [BitVec.getLsbD_of_ge _ _ (Nat.not_lt.1 h)] at h1
  cases h1

theorem testBit_pred {n c k : Nat} (hc : n.testBit c = true) (hlow : ∀ i < c, n.testBit i = false) (hk : c ≤ k) :
    (n - 1).testBit k = (n.testBit k && decide (k ≠ c)) := by
  -- `n` is an odd number shifted by `c`
  have hmod : n % 2 ^ c = 0 := by
    refine Nat.eq_of_testBit_eq fun i => ?_
    rw [Nat.testBit_mod_two_pow, Nat.zero_testBit]
    rcases Nat.lt_or_ge i c with h | h
    · rw [hlow i h, Bool.and_false]
    · rw [decide_eq_false (Nat.not_lt.2 h), Bool.false_and]
  have hodd : n / 2 ^ c % 2 = 1 := by
    rw [Nat.testBit_eq_decide_div_mod_eq, decide_eq_true_iff] at hc
    exact hc
  obtain ⟨m, hm⟩ : ∃ m, n / 2 ^ c = 2 * m + 1 := ⟨n / 2 ^ c / 2, by omega⟩
  have hn : n = 2 ^ c * (2 * m + 1) := by
    have h := Nat.div_add_mod n (2 ^ c)
    rw [hmod, hm] at h
    exact h.symm
  have hpos := Nat.two_pow_pos c
  have hpred : (n - 1) / 2 ^ c = 2 * m := by
    have h1 : n - 1 = 2 ^ c * (2 * m) + (2 ^ c - 1) := by
      rw [hn, Nat.mul_add, Nat.mul_one]
      omega
    rw [h1, Nat.mul_add_div hpos, Nat.div_eq_of_lt (Nat.sub_lt hpos Nat.one_pos), Nat.add_zero]
  obtain ⟨d, rfl⟩ := Nat.exists_eq_add_of_le hk
  rw [Nat.add_comm c d, ← Nat.testBit_div_two_pow, ← Nat.testBit_div_two_pow, hpred, hm]
  cases d with
  | zero => simp
  | succ d =>
    rw [Nat.testBit_succ, Nat.testBit_succ]
    have h1 : 2 * m / 2 = m := by omega
    have h2 : (2 * m + 1) / 2 = m := by omega
    rw [h1, h2]
    simp

theorem getLsbD_and_pred (hv : v ≠ 0) : (v &&& (v - 1)).getLsbD j = (v.getLsbD j && decide (j ≠ v.ctz.toNat)) := by
  rw [BitVec.getLsbD_and]
  rcases Nat.lt_or_ge j v.ctz.toNat with h | h
  · rw [BitVec.getLsbD_false_of_lt_ctz h, Bool.false_and, Bool.false_and]
  · have hp : (v - 1).getLsbD j = (v.getLsbD j && decide (j ≠ v.ctz.toNat)) := by
      change (v - 1).toNat.testBit j = _
      rw [toNat_pred (toNat_pos hv)]
      exact testBit_pred (BitVec.getLsbD_true_ctz_of_ne_zero hv) (fun i hi => BitVec.getLsbD_false_of_lt_ctz hi) h
    rw [hp, ← Bool.and_assoc, Bool.and_self]

theorem getLsbD_foldl_or (f : Nat → BitVec w) (n : Nat) :
    ((List.range n).foldl (fun v k => v ||| f k) v).getLsbD j = (v.getLsbD j || (List.range n).any fun k => (f k).getLsbD j) := by
  induction n with
  | zero => rw [List.range_zero, List.foldl_nil, List.any_nil, Bool.or_false]
  | succ n ih =>
    rw [List.range_succ, List.foldl_append, List.any_append, List.foldl_cons, List.foldl_nil, List.any_cons, List.any_nil,
      Bool.or_false, BitVec.getLsbD_or, ih, Bool.or_assoc]

theorem getLsbD_byte (x : BitVec 8) (k : Nat) (hj : j < w) :
    (x.setWidth w <<< (8 * k)).getLsbD j = (decide (k = j / 8) && x.getLsbD (j % 8)) := by
  rw [BitVec.getLsbD_shiftLeft, BitVec.getLsbD_setWidth, decide_eq_true hj]
  rcases Nat.lt_trichotomy k (j / 8) with h | rfl | h
  · rw [BitVec.getLsbD_of_ge x (j - 8 * k) (by omega), decide_eq_false (by omega : ¬ k = j / 8), Bool.and_false, Bool.and_false,
      Bool.false_and]
  · have he : j - 8 * (j / 8) = j % 8 := by omega
    rw [he, decide_eq_true rfl, decide_eq_false (by omega), decide_eq_true (by omega)]
    rfl
  · rw [decide_eq_true (by omega : j < 8 * k), decide_eq_false (by omega : ¬ k = j / 8)]
    rfl

theorem getLsbD_bytes (f : Nat → BitVec 8) (hw : 8 ∣ w) (hj : j < w) :
    ((List.range (w / 8)).foldl (fun v k => v ||| (f k).setWidth w <<< (8 * k)) v).getLsbD j =
      (v.getLsbD j || (f (j / 8)).getLsbD (j % 8)) := by
  rw [getLsbD_foldl_or fun k => (f k).setWidth w <<< (8 * k)]
  congr 1
  rw [Bool.eq_iff_iff, List.any_eq_true]
  constructor
  · rintro ⟨k, -, hk⟩
    rw [getLsbD_byte _ _ hj, Bool.and_eq_true, decide_eq_true_iff] at hk
    exact hk.1 ▸ hk.2
  · intro h
    refine ⟨j / 8, List.mem_range.2 (by omega), ?_⟩
    rw [getLsbD_byte _ _ hj, decide_eq_true rfl, Bool.true_and]
    exact h

end Words

section Runs

variable {taken : Nat → Bool} {lo n p q run s : Nat}

/-- No place from `a` up to `b` is taken. -/
def Clear (taken : Nat → Bool) (a b : Nat) : Prop := ∀ k, a ≤ k → k < b → taken k = false

theorem Clear.append {a b c : Nat} (h1 : Clear taken a b) (h2 : Clear taken b c) : Clear taken a c := by
  intro k hk hkc
  rcases Nat.lt_or_ge k b with h | h
  · exact h1 k hk h
  · exact h2 k h hkc

theorem Clear.mono {a b c d : Nat} (h : Clear taken a b) (h1 : a ≤ c) (h2 : d ≤ b) : Clear taken c d :=
  fun k hk hkd => h k (h1.trans hk) (hkd.trans_le h2)

/-- A run of `n` free places from `s` on. -/
def RunAt (taken : Nat → Bool) (lo n s : Nat) : Prop := lo ≤ s ∧ Clear taken s (s + n)

/-- A sweep from `lo` has come to `p`: the `run` places below are free and no others next to them, and no run of `n` ends here. -/
structure At (taken : Nat → Bool) (lo n p run : Nat) : Prop where
  pos : 0 < n
  above : lo + run ≤ p
  clear : Clear taken (p - run) p
  edge : p - run = lo ∨ taken (p - run - 1) = true ∧ lo < p - run
  none : ∀ s, RunAt taken lo n s → p < s + n

theorem At.start (taken : Nat → Bool) (lo : Nat) (hn : 0 < n) : At taken lo n lo 0 where
  pos := hn
  above := le_rfl
  clear k h1 h2 := absurd h1 (Nat.not_le.2 h2)
  edge := .inl rfl
  none s hs := by
    have := hs.1
    omega

theorem At.le_start (h : At taken lo n p run) (hs : RunAt taken lo n s) : p - run ≤ s := by
  rcases h.edge with he | ⟨ht, hlt⟩
  · exact he ▸ hs.1
  · by_contra hlt'
    have h1 := h.none s hs
    rw [hs.2 (p - run - 1) (by omega) (by omega)] at ht
    cases ht

theorem At.found (h : At taken lo n p run) (hq : Clear taken p q) (hn : n ≤ run + (q - p)) (hpq : p ≤ q) :
    IsLeast {s | RunAt taken lo n s} (p - run) := by
  have ha := h.above
  refine ⟨⟨by omega, ?_⟩, fun s hs => h.le_start hs⟩
  exact (h.clear.append hq).mono le_rfl (by omega)

theorem At.advance (h : At taken lo n p run) (hq : Clear taken p q) (hn : run + (q - p) < n) (hpq : p ≤ q) :
    At taken lo n q (run + (q - p)) := by
  have ha := h.above
  have he : q - (run + (q - p)) = p - run := by omega
  refine ⟨h.pos, by omega, ?_, ?_, fun s hs => ?_⟩
  · rw [he]
    exact h.clear.append hq
  · rw [he]
    exact h.edge
  · have h1 := h.le_start hs
    omega

theorem At.passed (h : At taken lo n p run) (ht : taken p = true) : At taken lo n (p + 1) 0 := by
  have ha := h.above
  refine ⟨h.pos, by omega, fun k h1 h2 => absurd h1 (Nat.not_le.2 h2), .inr ⟨ht, by omega⟩, fun s hs => ?_⟩
  have hn := h.pos
  have h1 := h.none s hs
  by_contra h2
  rw [hs.2 p (by omega) h1] at ht
  cases ht

theorem At.passed_all (h : At taken lo n p run) (ht : ∀ k, p ≤ k → k < q → taken k = true) (hpq : p < q) : At taken lo n q 0 := by
  obtain ⟨d, rfl⟩ := Nat.exists_eq_add_of_lt hpq
  induction d with
  | zero => exact h.passed (ht p le_rfl hpq)
  | succ d ih =>
    have h' := ih (fun k h1 h2 => ht k h1 (by omega)) (by omega)
    exact h'.passed (ht _ (by omega) (by omega))

end Runs

end Lib.Sweep
