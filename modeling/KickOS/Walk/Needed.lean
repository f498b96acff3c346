import KickOS.Walk.Frames

/-! The estimate of `tables_needed` along the entries a range spans: what one entry needs, and how a range adds up. -/

namespace KickOS
namespace Walk

open Lib.Radix

variable {b h k va last pages : Nat}

theorem div_span_between {p lo hi : Nat} (hk : k ≤ h) (hlo : lo / span b k ≤ p / span b k) (hhi : p / span b k ≤ hi / span b k) :
    lo / span b h ≤ p / span b h ∧ p / span b h ≤ hi / span b h := by
  induction h, hk using Nat.le_induction with
  | base => exact ⟨hlo, hhi⟩
  | succ h _ ih =>
    rw [div_span_succ, div_span_succ, div_span_succ]
    exact ⟨Nat.div_le_div_right ih.1, Nat.div_le_div_right ih.2⟩

theorem neededAt_congr {h' : Nat} {t : Table b Leaf h} {t' : Table b Leaf h'}
    (he : ∀ p, va / span b k ≤ p / span b k → p / span b k ≤ last / span b k → entryValid h t p k = entryValid h' t' p k)
    (hle : va ≤ last) : neededAt t va last k = neededAt t' va last k := by
  unfold neededAt
  refine List.countP_congr fun c hc => ?_
  have hdiv : c * span b k / span b k = c := Nat.mul_div_cancel c (span_pos b k)
  have hmono : va / span b k ≤ last / span b k := Nat.div_le_div_right hle
  rw [List.mem_range'_1] at hc
  rw [he (c * span b k) (by rw [hdiv]; exact hc.1) (by rw [hdiv]; omega)]

theorem neededFrom_congr {h' : Nat} {t : Table b Leaf h} {t' : Table b Leaf h'} (hle : va ≤ last) (n : Nat)
    (he : ∀ k, 0 < k → k ≤ n → ∀ p, va / span b k ≤ p / span b k → p / span b k ≤ last / span b k →
      entryValid h t p k = entryValid h' t' p k) : neededFrom t va last n = neededFrom t' va last n := by
  induction n with
  | zero => rfl
  | succ n ih =>
    unfold neededFrom
    rw [ih fun k h0 hk => he k h0 (by omega), neededAt_congr (he (n + 1) (Nat.succ_pos n) le_rfl) hle]

theorem neededAt_split {t : Table b Leaf h} {here : Nat} (hd : span b k ∣ va + here) (h0 : 0 < here) (hl : va + here ≤ last) :
    neededAt t va last k = neededAt t va (va + (here - 1)) k + neededAt t (va + here) last k := by
  obtain ⟨m, hm⟩ := hd
  have hpos := span_pos b k
  have hmid : (va + here) / span b k = m := by rw [hm, Nat.mul_div_cancel_left m hpos]
  have hm0 : 0 < m := by
    rcases Nat.eq_zero_or_pos m with rfl | hx
    · omega
    · exact hx
  have hbefore : (va + (here - 1)) / span b k + 1 = m := by
    have hle : (va + (here - 1)) / span b k ≤ m - 1 := by
      refine Nat.le_sub_one_of_lt (Nat.div_lt_of_lt_mul ?_)
      rw [← hm]
      omega
    have hge : m - 1 ≤ (va + (here - 1)) / span b k := by
      refine (Nat.le_div_iff_mul_le hpos).2 ?_
      have hx : (m - 1) * span b k + span b k = span b k * m := by
        rw [← Nat.succ_mul, Nat.succ_eq_add_one, Nat.sub_add_cancel hm0, Nat.mul_comm]
      omega
    omega
  have hva : va / span b k ≤ (va + (here - 1)) / span b k := Nat.div_le_div_right (by omega)
  have hlast : m ≤ last / span b k := by
    rw [← hmid]
    exact Nat.div_le_div_right hl
  unfold neededAt
  rw [← List.countP_append, hmid]
  have hcut : last / span b k - va / span b k + 1 =
      ((va + (here - 1)) / span b k - va / span b k + 1) + (last / span b k - m + 1) := by omega
  have hstart : m = va / span b k + 1 * ((va + (here - 1)) / span b k - va / span b k + 1) := by omega
  rw [hcut]
  conv_rhs => rw [hstart, List.range'_append]
  rw [← hstart]

theorem neededFrom_split {t : Table b Leaf h} {here : Nat} (n : Nat) (hd : span b n ∣ va + here) (h0 : 0 < here)
    (hl : va + here ≤ last) :
    neededFrom t va last n = neededFrom t va (va + (here - 1)) n + neededFrom t (va + here) last n := by
  induction n with
  | zero => rfl
  | succ n ih =>
    have hd' : span b n ∣ va + here := (Dvd.intro _ (span_succ b n).symm).trans hd
    unfold neededFrom
    rw [ih hd', neededAt_split hd h0 hl]
    omega

theorem tablesNeeded_append {t : Table b Leaf (h + 1)} {here rest : Nat} (hd : rest ≠ 0 → span b (h + 1) ∣ va + here)
    (h0 : 0 < here) : tablesNeeded t va (here + rest) = tablesNeeded t va here + tablesNeeded t (va + here) rest := by
  unfold tablesNeeded
  rcases Nat.eq_zero_or_pos rest with rfl | hr
  · rw [if_pos rfl]
    rfl
  · rw [if_neg (by omega), if_neg (by omega), if_neg (by omega)]
    have hlast : va + (here + rest - 1) = va + here + (rest - 1) := by omega
    rw [hlast, neededFrom_split (h + 1) (hd (by omega)) h0 (by omega)]

theorem tablesNeeded_congr {t t' : Table b Leaf (h + 1)}
    (he : ∀ i, (∃ p, index b (h + 1) p = i ∧ va / span b (h + 1) ≤ p / span b (h + 1) ∧
      p / span b (h + 1) ≤ (va + (pages - 1)) / span b (h + 1)) → t' i = t i) :
        tablesNeeded t' va pages = tablesNeeded t va pages := by
  unfold tablesNeeded
  split_ifs
  · rfl
  · refine neededFrom_congr (by omega) (h + 1) fun k _ hk p hlo hhi => ?_
    have hb := div_span_between hk hlo hhi
    unfold entryValid
    rw [he _ ⟨p, rfl, hb⟩]

theorem tablesNeeded_slot {t : Table b Leaf (h + 1)} {c : Table b Leaf h} (h0 : pages ≠ 0)
    (hone : (va + (pages - 1)) / span b (h + 1) = va / span b (h + 1))
    (hc : (∃ f, t (index b (h + 1) va) = .table f c) ∨ (t (index b (h + 1) va) = .empty ∧ c = zero h)) :
    tablesNeeded t va pages = (t (index b (h + 1) va)).isEmpty.toNat + tablesNeeded c va pages := by
  have hzero : ∀ (h p k : Nat), entryValid h (zero h : Table b Leaf h) p k = false := by
    intro h p k
    cases h with
    | zero => rfl
    | succ h =>
      unfold entryValid zero
      split_ifs <;> rfl
  unfold tablesNeeded
  rw [if_neg h0, if_neg h0, neededFrom]
  congr 1
  · unfold neededAt
    rw [hone, Nat.sub_self, Nat.zero_add, List.range'_one]
    have hidx : index b (h + 1) (va / span b (h + 1) * span b (h + 1)) = index b (h + 1) va :=
      index_congr (Nat.mul_div_cancel _ (span_pos b (h + 1)))
    have hv : entryValid (h + 1) t (va / span b (h + 1) * span b (h + 1)) (h + 1) = !(t (index b (h + 1) va)).isEmpty := by
      unfold entryValid
      rw [if_pos rfl, hidx]
    cases hx : (t (index b (h + 1) va)).isEmpty <;> simp [hv, hx]
  · refine neededFrom_congr (by omega) h fun k _ hk p hlo hhi => ?_
    have hb := div_span_between (Nat.le_succ_of_le hk) hlo hhi
    rw [hone] at hb
    have hidx : index b (h + 1) p = index b (h + 1) va := index_congr (le_antisymm hb.2 hb.1)
    rw [entryValid, if_neg (by omega), hidx]
    rcases hc with ⟨f, hf⟩ | ⟨hf, rfl⟩
    · rw [hf]
    · rw [hf, hzero]

end Walk
end KickOS
