import KickOS.Range.Model

/-! The live entries of a range list are whole granules, end below the top of the address space and are pairwise disjoint, after
every sequence of calls; what `reserve` and `covers` answer follows. -/

namespace KickOS.Range

open Lib.Extent

variable {w n : Nat} {v v' : VirtualRanges w n} {i j : Fin n} {r : VirtualRange w} {base pages g stop : BitVec w}

/-- The addresses of `pages` granules. -/
def extent (g base : BitVec w) (pages : Nat) : Set Nat := Set.Ico base.toNat (base.toNat + pages * g.toNat)

def VirtualRange.span (g : BitVec w) (r : VirtualRange w) : Set Nat := extent g r.base r.pages.toNat

/-- At least one whole granule, with an end that is a word. -/
structure VirtualRange.Whole (g : BitVec w) (r : VirtualRange w) : Prop where
  aligned : g.toNat ∣ r.base.toNat
  pages : 0 < r.pages.toNat
  granule : 0 < g.toNat
  fits : r.base.toNat + r.pages.toNat * g.toNat < 2 ^ w

structure Inv (v : VirtualRanges w n) : Prop where
  granule : v.granule ≠ 0 → v.granule.toNat.isPowerOfTwo
  whole : ∀ i, v.Live i → (v.ranges i).Whole v.granule
  apart : ∀ i j, i ≠ j → v.Live i → v.Live j → Disjoint ((v.ranges i).span v.granule) ((v.ranges j).span v.granule)

theorem of_find {p : Fin n → Prop} [DecidablePred p] (h : (List.finRange n).find? (fun i => decide (p i)) = some i) : p i := by
  have hp := List.find?_some h
  exact of_decide_eq_true hp

theorem not_of_find {p : Fin n → Prop} [DecidablePred p] (h : (List.finRange n).find? (fun i => decide (p i)) = none)
    (i : Fin n) : ¬ p i := by
  have hp := List.find?_eq_none.1 h i (List.mem_finRange i)
  exact fun hi => hp (decide_eq_true hi)

theorem toNat_pos_iff : g ≠ 0 ↔ 0 < g.toNat := by
  rw [Nat.pos_iff_ne_zero, ← BitVec.toNat_inj.ne]
  rfl

theorem isPow2_iff : isPow2 g = true ↔ g.toNat.isPowerOfTwo := by
  unfold isPow2
  rw [Bool.and_eq_true, bne_iff_ne, beq_iff_eq]
  exact isPowerOfTwo_iff

theorem extentEnd_eq_some : extentEnd base pages g = some stop ↔
    pages ≠ 0 ∧ g ≠ 0 ∧ base.toNat + pages.toNat * g.toNat < 2 ^ w ∧ stop.toNat = base.toNat + pages.toNat * g.toNat := by
  unfold extentEnd
  rcases em (pages = 0 ∨ g = 0) with h0 | h0
  · rw [if_pos h0]
    constructor
    · rintro ⟨⟩
    · rintro ⟨h1, h2, -⟩
      exact absurd h0 (not_or.2 ⟨h1, h2⟩)
  · rw [if_neg h0]
    obtain ⟨hp, hg⟩ := not_or.1 h0
    rcases em (pages.toNat * g.toNat < 2 ^ w) with h1 | h1
    · have hb : (pages * g).toNat = pages.toNat * g.toNat := by rw [BitVec.toNat_mul, Nat.mod_eq_of_lt h1]
      rw [if_neg (not_not.2 ((mul_div_cancel_iff hg).2 h1)), if_congr add_lt_iff rfl rfl, hb]
      split_ifs with h2
      · constructor
        · rintro ⟨⟩
        · rintro ⟨-, -, h3, -⟩
          exact absurd h2 (Nat.not_le.2 h3)
      · have hs : (base + pages * g).toNat = base.toNat + pages.toNat * g.toNat := by
          rw [BitVec.toNat_add, hb, Nat.mod_eq_of_lt (Nat.not_le.1 h2)]
        rw [Option.some_inj, ← BitVec.toNat_inj, hs]
        exact ⟨fun h => ⟨hp, hg, Nat.not_le.1 h2, h.symm⟩, fun h => h.2.2.2.symm⟩
    · rw [if_pos (mt (mul_div_cancel_iff hg).1 h1)]
      constructor
      · rintro ⟨⟩
      · rintro ⟨-, -, h3, -⟩
        omega

theorem extentEnd_eq_none (hp : pages ≠ 0) (hg : g ≠ 0) :
    extentEnd base pages g = none ↔ 2 ^ w ≤ base.toNat + pages.toNat * g.toNat := by
  rw [← not_iff_not, ← ne_eq, Option.ne_none_iff_exists', Nat.not_le]
  constructor
  · rintro ⟨stop, h⟩
    exact (extentEnd_eq_some.1 h).2.2.1
  · intro h
    refine ⟨BitVec.ofNat w (base.toNat + pages.toNat * g.toNat), extentEnd_eq_some.2 ⟨hp, hg, h, ?_⟩⟩
    rw [BitVec.toNat_ofNat, Nat.mod_eq_of_lt h]

theorem VirtualRange.Whole.endOf (h : r.Whole v.granule) :
    (v.endOf r).toNat = r.base.toNat + r.pages.toNat * v.granule.toNat := by
  have hf := h.fits
  have hle : r.pages.toNat ≤ r.pages.toNat * v.granule.toNat := Nat.le_mul_of_pos_right _ h.granule
  unfold VirtualRanges.endOf
  rw [BitVec.toNat_add, BitVec.toNat_mul, BitVec.toNat_setWidth, Nat.mod_eq_of_lt (by omega : r.pages.toNat < 2 ^ w),
    Nat.mod_eq_of_lt (by omega : r.pages.toNat * v.granule.toNat < 2 ^ w), Nat.mod_eq_of_lt hf]

theorem extent_disjoint_iff {b c : BitVec w} {p q : Nat} (hg : 0 < g.toNat) (hp : 0 < p) (hq : 0 < q) :
    Disjoint (extent g b p) (extent g c q) ↔ b.toNat + p * g.toNat ≤ c.toNat ∨ c.toNat + q * g.toNat ≤ b.toNat :=
  Ico_disjoint_iff (Nat.lt_add_of_pos_right (Nat.mul_pos hp hg)) (Nat.lt_add_of_pos_right (Nat.mul_pos hq hg))

theorem Inv.meets_iff (h : Inv v) (hp : 0 < pages.toNat) (hs : stop.toNat = base.toNat + pages.toNat * v.granule.toNat) :
    v.meets base stop i = true ↔ v.Live i ∧ ¬ Disjoint (extent v.granule base pages.toNat) ((v.ranges i).span v.granule) := by
  unfold VirtualRanges.meets
  rw [Bool.and_eq_true, Bool.and_eq_true, decide_eq_true_iff, decide_eq_true_iff, decide_eq_true_iff, and_assoc]
  refine and_congr_right fun hl => ?_
  have hw := h.whole i hl
  rw [VirtualRange.span, extent_disjoint_iff hw.granule hp hw.pages, BitVec.lt_def, BitVec.lt_def, hw.endOf, hs]
  omega

theorem Inv.overlaps_iff (h : Inv v) (hg : v.granule ≠ 0) (hp : pages ≠ 0) :
    v.overlaps base pages = false ↔ base.toNat + pages.toNat * v.granule.toNat < 2 ^ w ∧
      ∀ i, v.Live i → Disjoint (extent v.granule base pages.toNat) ((v.ranges i).span v.granule) := by
  unfold VirtualRanges.overlaps
  rw [if_neg (not_or.2 ⟨hg, hp⟩)]
  cases he : extentEnd base pages v.granule with
  | none =>
    have h1 := (extentEnd_eq_none hp hg).1 he
    constructor
    · rintro ⟨⟩
    · rintro ⟨h2, -⟩
      omega
  | some stop =>
    obtain ⟨-, -, h1, h2⟩ := extentEnd_eq_some.1 he
    dsimp only
    rw [List.any_eq_false, and_iff_right h1]
    refine ⟨fun hall i hl => ?_, fun hall i _ hm => ?_⟩
    · by_contra hd
      exact hall i (List.mem_finRange i) ((h.meets_iff (toNat_pos_iff.1 hp) h2).2 ⟨hl, hd⟩)
    · obtain ⟨hl, hd⟩ := (h.meets_iff (toNat_pos_iff.1 hp) h2).1 hm
      exact hd (hall i hl)

/-- When a window may be reserved. -/
structure Room (v : VirtualRanges w n) (base pages : BitVec w) : Prop where
  granule : v.granule ≠ 0
  aligned : v.granule.toNat ∣ base.toNat
  nonempty : pages ≠ 0
  narrow : pages.toNat ≤ vrMaxPages
  fits : base.toNat + pages.toNat * v.granule.toNat < 2 ^ w
  clear : ∀ i, v.Live i → Disjoint (extent v.granule base pages.toNat) ((v.ranges i).span v.granule)
  entry : ∃ i, ¬ v.Live i

section Reserve

variable {flags : BitVec 8} {run : BitVec 32} {holder donor : BitVec 16}

theorem Inv.reserve_room (h : Inv v) (hr : Room v base pages) (flags : BitVec 8) (run : BitVec 32)
    (holder donor : BitVec 16) : ∃ i, ¬ v.Live i ∧ v.reserve base pages flags run holder donor =
    (v.setRange i { base := base, pages := pages.setWidth 32, run := run, flags := flags, state := .reserved, holder := holder,
                    donor := donor }, true) := by
  have ho := (h.overlaps_iff hr.granule hr.nonempty).2 ⟨hr.fits, hr.clear⟩
  have ha : ¬ (v.granule = 0 ∨ pages = 0 ∨ base &&& (v.granule - 1) ≠ 0) := by
    rw [not_or, not_or, not_not]
    exact ⟨hr.granule, hr.nonempty, (and_pred_eq_zero (h.granule hr.granule)).2 hr.aligned⟩
  unfold VirtualRanges.reserve
  rw [if_neg ha, if_neg (Nat.not_lt.2 hr.narrow), ho, if_neg Bool.false_ne_true]
  cases hf : (List.finRange n).find? fun i => decide (¬ v.Live i) with
  | none =>
    obtain ⟨i, hi⟩ := hr.entry
    exact absurd hi (not_of_find hf i)
  | some i => exact ⟨i, of_find hf, rfl⟩

theorem Inv.reserve_refused (h : Inv v) (hr : ¬ Room v base pages) :
    v.reserve base pages flags run holder donor = (v, false) := by
  unfold VirtualRanges.reserve
  split_ifs with h1 h2 h3
  · rfl
  · rfl
  · rfl
  · rw [not_or, not_or, not_not] at h1
    obtain ⟨hf, hc⟩ := (h.overlaps_iff h1.1 h1.2.1).1 (Bool.eq_false_iff.2 h3)
    cases he : (List.finRange n).find? fun i => decide (¬ v.Live i) with
    | none => rfl
    | some i =>
      refine absurd ⟨h1.1, ?_, h1.2.1, Nat.not_lt.1 h2, hf, hc, i, of_find he⟩ hr
      exact (and_pred_eq_zero (h.granule h1.1)).1 h1.2.2

theorem Inv.reserve_iff (h : Inv v) : (v.reserve base pages flags run holder donor).2 = true ↔ Room v base pages := by
  constructor
  · intro hr
    by_contra hn
    rw [h.reserve_refused hn] at hr
    cases hr
  · intro hr
    obtain ⟨i, -, he⟩ := h.reserve_room hr flags run holder donor
    rw [he]

end Reserve

/-- What a call can do to the entries. -/
inductive Change (v : VirtualRanges w n) : VirtualRanges w n → Prop
  | none : Change v v
  | edit (i : Fin n) (r : VirtualRange w) (live : v.Live i) (state : r.state ≠ .free) (base : r.base = (v.ranges i).base)
      (pages : r.pages = (v.ranges i).pages) : Change v (v.setRange i r)
  | drop (i : Fin n) : Change v (v.setRange i {})
  | add (i : Fin n) (r : VirtualRange w) (whole : r.Whole v.granule)
      (clear : ∀ j, v.Live j → Disjoint (r.span v.granule) ((v.ranges j).span v.granule)) : Change v (v.setRange i r)

theorem ranges_setRange_self : (v.setRange i r).ranges i = r := Function.update_self ..

theorem ranges_setRange_of_ne (hj : j ≠ i) : (v.setRange i r).ranges j = v.ranges j := Function.update_of_ne hj ..

theorem live_setRange_of_ne (hj : j ≠ i) : (v.setRange i r).Live j ↔ v.Live j := by
  unfold VirtualRanges.Live
  rw [ranges_setRange_of_ne hj]

theorem Inv.setRange (h : Inv v) (hw : r.state ≠ .free → r.Whole v.granule)
    (hc : r.state ≠ .free → ∀ j, j ≠ i → v.Live j → Disjoint (r.span v.granule) ((v.ranges j).span v.granule)) :
    Inv (v.setRange i r) := by
  refine ⟨h.granule, fun j hl => ?_, fun j k hjk hj hk => ?_⟩
  · rcases eq_or_ne j i with rfl | hne
    · unfold VirtualRanges.Live at hl
      rw [ranges_setRange_self] at hl ⊢
      exact hw hl
    · rw [ranges_setRange_of_ne hne]
      exact h.whole j ((live_setRange_of_ne hne).1 hl)
  · rcases eq_or_ne j i with rfl | hji
    · have hk' := (live_setRange_of_ne hjk.symm).1 hk
      unfold VirtualRanges.Live at hj
      rw [ranges_setRange_self] at hj ⊢
      rw [ranges_setRange_of_ne hjk.symm]
      exact hc hj k hjk.symm hk'
    · have hj' := (live_setRange_of_ne hji).1 hj
      rcases eq_or_ne k i with rfl | hki
      · unfold VirtualRanges.Live at hk
        rw [ranges_setRange_self] at hk ⊢
        rw [ranges_setRange_of_ne hji]
        exact (hc hk j hji hj').symm
      · rw [ranges_setRange_of_ne hji, ranges_setRange_of_ne hki]
        exact h.apart j k hjk hj' ((live_setRange_of_ne hki).1 hk)

theorem Change.inv (h : Inv v) (hc : Change v v') : Inv v' := by
  cases hc with
  | none => exact h
  | edit i r live state hb hp =>
    have hs : r.span v.granule = (v.ranges i).span v.granule := by
      unfold VirtualRange.span
      rw [hb, hp]
    have hw := h.whole i live
    refine h.setRange (fun _ => ⟨?_, ?_, hw.granule, ?_⟩) fun _ j hj hl => ?_
    · rw [hb]
      exact hw.aligned
    · rw [hp]
      exact hw.pages
    · rw [hb, hp]
      exact hw.fits
    · rw [hs]
      exact h.apart i j hj.symm live hl
  | drop i => exact h.setRange (fun hs => absurd rfl hs) fun hs => absurd rfl hs
  | add i r whole clear => exact h.setRange (fun _ => whole) fun _ j _ hl => clear j hl

theorem live_of_indexAt (h : v.indexAt base = some i) : v.Live i := (of_find h).1

theorem Inv.step_change (h : Inv v) (op : Op w n) : Change v (v.step op) := by
  cases op with
  | reserve base pages flags run holder donor =>
    dsimp only [VirtualRanges.step]
    rcases em (Room v base pages) with hr | hr
    · obtain ⟨i, -, he⟩ := h.reserve_room hr flags run holder donor
      have hp : (pages.setWidth 32).toNat = pages.toNat := by
        have hn := hr.narrow
        unfold vrMaxPages at hn
        rw [BitVec.toNat_setWidth]
        exact Nat.mod_eq_of_lt (by omega)
      rw [he]
      refine .add i _ ⟨hr.aligned, ?_, toNat_pos_iff.1 hr.granule, ?_⟩ fun j hj => ?_
      · exact hp ▸ toNat_pos_iff.1 hr.nonempty
      · exact hp ▸ hr.fits
      · unfold VirtualRange.span
        dsimp only
        rw [hp]
        exact hr.clear j hj
    · rw [h.reserve_refused hr]
      exact .none
  | grant base pages rights memtype =>
    dsimp only [VirtualRanges.step, VirtualRanges.grant]
    split_ifs
    · exact .none
    · exact .none
    · cases hi : v.indexAt base with
      | none => exact .none
      | some i =>
        dsimp only
        split_ifs
        · exact .none
        · exact .edit i _ (live_of_indexAt hi) (by rintro ⟨⟩) rfl rfl
  | lend base more =>
    dsimp only [VirtualRanges.step, VirtualRanges.lend]
    cases hi : v.indexAt base with
    | none => exact .none
    | some i => exact .edit i _ (live_of_indexAt hi) (live_of_indexAt hi) rfl rfl
  | release base =>
    dsimp only [VirtualRanges.step, VirtualRanges.release]
    cases hi : v.indexAt base with
    | none => exact .none
    | some i =>
      dsimp only [VirtualRanges.releaseAt]
      rw [if_pos (live_of_indexAt hi)]
      exact .drop i
  | releaseAt i =>
    dsimp only [VirtualRanges.step, VirtualRanges.releaseAt]
    split_ifs
    · exact .drop i
    · exact .none
  | setSyncOwed base owed =>
    dsimp only [VirtualRanges.step, VirtualRanges.setSyncOwed]
    cases hi : v.indexAt base with
    | none => exact .none
    | some i => exact .edit i _ (live_of_indexAt hi) (live_of_indexAt hi) rfl rfl

theorem inv_init (g : BitVec w) : Inv (VirtualRanges.init g : VirtualRanges w n) := by
  refine ⟨fun hg => ?_, fun i hl => absurd rfl hl, fun i j _ hl => absurd rfl hl⟩
  unfold VirtualRanges.init at hg ⊢
  dsimp only at hg ⊢
  split_ifs at hg ⊢ with hp
  · exact isPow2_iff.1 hp
  · exact absurd rfl hg

theorem Inv.run (h : Inv v) (ops : List (Op w n)) : Inv (v.run ops) := by
  induction ops generalizing v with
  | nil => exact h
  | cons op ops ih => exact ih ((h.step_change op).inv h)

section Covers

variable {addr len : BitVec w} {rights : BitVec 32}

theorem Inv.holds_iff (h : Inv v) (hl : v.Live i) (hn : len ≠ 0) :
    Set.Ico addr.toNat (addr.toNat + len.toNat) ⊆ (v.ranges i).span v.granule ↔
      ¬ addr + len < addr ∧ (v.ranges i).base ≤ addr ∧ addr + len ≤ v.endOf (v.ranges i) := by
  have hw := h.whole i hl
  have hf := hw.fits
  have hpos := toNat_pos_iff.1 hn
  rw [VirtualRange.span, extent, Set.Ico_subset_Ico_iff (by omega), add_lt_iff, BitVec.le_def, BitVec.le_def, hw.endOf,
    BitVec.toNat_add]
  constructor
  · rintro ⟨h1, h2⟩
    have hlt : addr.toNat + len.toNat < 2 ^ w := by omega
    rw [Nat.mod_eq_of_lt hlt]
    exact ⟨Nat.not_le.2 hlt, h1, h2⟩
  · rintro ⟨h1, h2, h3⟩
    rw [Nat.mod_eq_of_lt (Nat.not_le.1 h1)] at h3
    exact ⟨h2, h3⟩

theorem Inv.find_iff (h : Inv v) :
    v.find addr len = some i ↔ len ≠ 0 ∧ v.Live i ∧ Set.Ico addr.toNat (addr.toNat + len.toNat) ⊆
      (v.ranges i).span v.granule := by
  unfold VirtualRanges.find
  constructor
  · intro hf
    split_ifs at hf with h1 h2
    obtain ⟨-, hn⟩ := not_or.1 h1
    obtain ⟨hl, hb⟩ := of_find hf
    exact ⟨hn, hl, (h.holds_iff hl hn).2 ⟨h2, hb⟩⟩
  · rintro ⟨hn, hl, hs⟩
    obtain ⟨h2, hb⟩ := (h.holds_iff hl hn).1 hs
    rw [if_neg (not_or.2 ⟨toNat_pos_iff.2 (h.whole i hl).granule, hn⟩), if_neg h2]
    cases hf : (List.finRange n).find? fun i => decide (v.Live i ∧ (v.ranges i).base ≤ addr ∧
      addr + len ≤ v.endOf (v.ranges i)) with
    | none => exact absurd ⟨hl, hb⟩ (not_of_find hf i)
    | some j =>
      obtain ⟨hlj, hbj⟩ := of_find hf
      have hsj := (h.holds_iff hlj hn).2 ⟨h2, hbj⟩
      -- two entries that hold the range share its first address
      have hmem : addr.toNat ∈ Set.Ico addr.toNat (addr.toNat + len.toNat) :=
        ⟨le_rfl, Nat.lt_add_of_pos_right (toNat_pos_iff.1 hn)⟩
      by_contra hne
      have hji : j ≠ i := fun he => hne (by rw [he])
      exact Set.disjoint_left.1 (h.apart j i hji hlj hl) (hsj hmem) (hs hmem)

theorem Inv.covers_iff (h : Inv v) : v.covers addr len rights = true ↔
    len ≠ 0 ∧ ∃ i, (v.ranges i).state = .granted ∧ Set.Ico addr.toNat (addr.toNat + len.toNat) ⊆ (v.ranges i).span v.granule ∧
      (v.ranges i).rights.setWidth 32 &&& rights = rights := by
  have hgr : ∀ i, (v.ranges i).grants rights = true ↔
      (v.ranges i).state = .granted ∧ (v.ranges i).rights.setWidth 32 &&& rights = rights := by
    intro i
    unfold VirtualRange.grants
    rw [Bool.and_eq_true, beq_iff_eq, beq_iff_eq]
  unfold VirtualRanges.covers
  constructor
  · intro hc
    cases hf : v.find addr len with
    | none =>
      rw [hf] at hc
      cases hc
    | some i =>
      rw [hf] at hc
      obtain ⟨hst, hr⟩ := (hgr i).1 hc
      obtain ⟨hn, -, hs⟩ := h.find_iff.1 hf
      exact ⟨hn, i, hst, hs, hr⟩
  · rintro ⟨hn, i, hst, hs, hr⟩
    have hl : v.Live i := by
      unfold VirtualRanges.Live
      rw [hst]
      rintro ⟨⟩
    rw [h.find_iff.2 ⟨hn, hl, hs⟩]
    exact (hgr i).2 ⟨hst, hr⟩

end Covers

end KickOS.Range
