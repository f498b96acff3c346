import KickOS.Range.Apart

/-! `place` answers the lowest base of an area at which a window meets no live entry.

The walk goes on behind whichever entry it meets first: no base up to that entry's end can be clear of it, so none is skipped
that a walk over a sorted list would have found. -/

namespace KickOS.Range

open Lib.Extent

variable {w n : Nat} {v : VirtualRanges w n} {area areaPages areaEnd pages base : BitVec w}

/-- A base on the granule from which `pages` granules lie in the area and meet no live entry. -/
structure Fits (v : VirtualRanges w n) (area areaPages pages : BitVec w) (b : Nat) : Prop where
  aligned : v.granule.toNat ∣ b
  above : area.toNat ≤ b
  below : b + pages.toNat * v.granule.toNat ≤ area.toNat + areaPages.toNat * v.granule.toNat
  clear : ∀ i, v.Live i → Disjoint (Set.Ico b (b + pages.toNat * v.granule.toNat)) ((v.ranges i).span v.granule)

/-- The lowest base that fits, or 0 where none does. -/
def Lowest (v : VirtualRanges w n) (area areaPages pages answer : BitVec w) : Prop :=
  IsLeast {b | Fits v area areaPages pages b} answer.toNat ∨ (∀ b, ¬ Fits v area areaPages pages b) ∧ answer = 0

theorem Inv.endOf_le_of_hit (h : Inv v) {stop : BitVec w} {i : Fin n} {b : Nat} (hp : pages ≠ 0)
    (hs : stop.toNat = base.toNat + pages.toNat * v.granule.toNat) (hh : v.hit base stop = some i)
    (hb : Fits v area areaPages pages b) (hle : base.toNat ≤ b) : (v.endOf (v.ranges i)).toNat ≤ b := by
  have hpos := toNat_pos_iff.1 hp
  obtain ⟨hl, hd⟩ := (h.meets_iff hpos hs).1 (List.find?_some hh)
  have hw := h.whole i hl
  have hlen := Nat.mul_pos hpos hw.granule
  have hlen' := Nat.mul_pos hw.pages hw.granule
  have hc := hb.clear i hl
  rw [VirtualRange.span, extent_disjoint_iff hw.granule hpos hw.pages, not_or] at hd
  rw [VirtualRange.span, extent, Ico_disjoint_iff (by omega) (by omega)] at hc
  rw [hw.endOf]
  omega

theorem Inv.aligned_endOf (h : Inv v) {i : Fin n} (hl : v.Live i) : v.granule.toNat ∣ (v.endOf (v.ranges i)).toNat := by
  have hw := h.whole i hl
  rw [hw.endOf]
  exact (Nat.dvd_add_right hw.aligned).2 (Nat.dvd_mul_left ..)

theorem Inv.placeFrom_lowest (h : Inv v) (hp : pages ≠ 0) (hg : v.granule ≠ 0)
    (he : areaEnd.toNat = area.toNat + areaPages.toNat * v.granule.toNat) (ha : v.granule.toNat ∣ base.toNat)
    (hle : area.toNat ≤ base.toNat) (hmin : ∀ b, Fits v area areaPages pages b → base.toNat ≤ b) :
    Lowest v area areaPages pages (v.placeFrom areaEnd pages base) := by
  -- nothing fits once the window from the base leaves the area
  have hout : areaEnd.toNat < base.toNat + pages.toNat * v.granule.toNat → ∀ b, ¬ Fits v area areaPages pages b := by
    intro hlt b hb
    have h1 := hmin b hb
    have h2 := hb.below
    omega
  fun_induction VirtualRanges.placeFrom v areaEnd pages base with
  | case1 base hn =>
    refine .inr ⟨hout ?_, rfl⟩
    exact areaEnd.isLt.trans_le ((extentEnd_eq_none hp hg).1 hn)
  | case2 base stop hs hin hh =>
    obtain ⟨-, -, -, hst⟩ := extentEnd_eq_some.1 hs
    refine .inl ⟨⟨ha, hle, ?_, fun i hl => ?_⟩, fun b hb => hmin b hb⟩
    · rw [← hst, ← he]
      exact BitVec.le_def.1 hin
    · by_contra hd
      have hm := (h.meets_iff (toNat_pos_iff.1 hp) hst).2 ⟨hl, hd⟩
      exact List.find?_eq_none.1 hh i (List.mem_finRange i) hm
  | case3 base stop hs hin i hh ih =>
    obtain ⟨-, -, -, hst⟩ := extentEnd_eq_some.1 hs
    have hl := ((h.meets_iff (toNat_pos_iff.1 hp) hst).1 (List.find?_some hh)).1
    have hlt := BitVec.lt_def.1 (VirtualRanges.lt_endOf_of_hit hh)
    have hmin' : ∀ b, Fits v area areaPages pages b → (v.endOf (v.ranges i)).toNat ≤ b :=
      fun b hb => h.endOf_le_of_hit hp hst hh hb (hmin b hb)
    refine ih (h.aligned_endOf hl) (by omega) hmin' fun hlt b hb => ?_
    have h1 := hmin' b hb
    have h2 := hb.below
    omega
  | case4 base stop hs hin =>
    obtain ⟨-, -, -, hst⟩ := extentEnd_eq_some.1 hs
    refine .inr ⟨hout ?_, rfl⟩
    rw [← hst]
    exact BitVec.lt_def.1 (BitVec.not_le.1 hin)

theorem Inv.place_lowest (h : Inv v) (hg : v.granule ≠ 0) (hp : pages ≠ 0) (ha : v.granule.toNat ∣ area.toNat)
    (hf : area.toNat + areaPages.toNat * v.granule.toNat < 2 ^ w) :
    Lowest v area areaPages pages (v.place area areaPages pages) := by
  have haw : area &&& (v.granule - 1) = 0 := (and_pred_eq_zero (h.granule hg)).2 ha
  unfold VirtualRanges.place
  rcases em (areaPages < pages) with hlt | hlt
  · rw [if_pos (.inr (.inr (.inl hlt)))]
    refine .inr ⟨fun b hb => ?_, rfl⟩
    have h1 := Nat.mul_lt_mul_of_pos_right (BitVec.lt_def.1 hlt) (toNat_pos_iff.1 hg)
    have h2 := hb.below
    have h3 := hb.above
    omega
  · rw [if_neg (not_or.2 ⟨hg, not_or.2 ⟨hp, not_or.2 ⟨hlt, not_not.2 haw⟩⟩⟩)]
    have hap : areaPages ≠ 0 := by
      rintro rfl
      exact hlt (BitVec.lt_def.2 (toNat_pos_iff.1 hp))
    cases he : extentEnd area areaPages v.granule with
    | none => exact absurd ((extentEnd_eq_none hap hg).1 he) (Nat.not_le.2 hf)
    | some areaEnd => exact h.placeFrom_lowest hp hg (extentEnd_eq_some.1 he).2.2.2 ha le_rfl fun b hb => hb.above

theorem Inv.place_refused (h : Inv v)
    (hn : ¬ (v.granule ≠ 0 ∧ pages ≠ 0 ∧ v.granule.toNat ∣ area.toNat ∧ area.toNat + areaPages.toNat * v.granule.toNat < 2 ^ w)) :
    v.place area areaPages pages = 0 := by
  unfold VirtualRanges.place
  split_ifs with h1
  · rfl
  · obtain ⟨hg, hp, -, ha⟩ : v.granule ≠ 0 ∧ pages ≠ 0 ∧ ¬ areaPages < pages ∧ area &&& (v.granule - 1) = 0 := by
      rw [not_or, not_or, not_or, not_not] at h1
      exact h1
    cases he : extentEnd area areaPages v.granule with
    | none => rfl
    | some areaEnd =>
      exact absurd ⟨hg, hp, (and_pred_eq_zero (h.granule hg)).1 ha, (extentEnd_eq_some.1 he).2.2.1⟩ hn

/-- Over every sequence of calls the live entries are whole granules below the top of the address space and pairwise disjoint,
`reserve` takes a window exactly where there is room for it, `covers` says whether one granted entry holds a range, and `place`
answers the lowest base of an aligned area whose end is a word, and 0 for any other. -/
theorem ranges_sound (granule : BitVec w) (ops : List (Op w n)) (hv : v = (VirtualRanges.init granule).run ops) :
    (∀ i, v.Live i → v.granule.toNat ∣ (v.ranges i).base.toNat ∧ 0 < (v.ranges i).pages.toNat ∧
      (v.ranges i).base.toNat + (v.ranges i).pages.toNat * v.granule.toNat < 2 ^ w) ∧
    (∀ i j, i ≠ j → v.Live i → v.Live j → Disjoint ((v.ranges i).span v.granule) ((v.ranges j).span v.granule)) ∧
    (∀ base pages flags run holder donor, (v.reserve base pages flags run holder donor).2 = true ↔
      v.granule ≠ 0 ∧ v.granule.toNat ∣ base.toNat ∧ pages ≠ 0 ∧ pages.toNat ≤ vrMaxPages ∧
      base.toNat + pages.toNat * v.granule.toNat < 2 ^ w ∧
      (∀ i, v.Live i → Disjoint (extent v.granule base pages.toNat) ((v.ranges i).span v.granule)) ∧ ∃ i, ¬ v.Live i) ∧
    (∀ addr len rights, v.covers addr len rights = true ↔
      len ≠ 0 ∧ ∃ i, (v.ranges i).state = .granted ∧
        Set.Ico addr.toNat (addr.toNat + len.toNat) ⊆ (v.ranges i).span v.granule ∧
        (v.ranges i).rights.setWidth 32 &&& rights = rights) ∧
    (∀ area areaPages pages,
      (v.granule ≠ 0 ∧ pages ≠ 0 ∧ v.granule.toNat ∣ area.toNat ∧ area.toNat + areaPages.toNat * v.granule.toNat < 2 ^ w →
        Lowest v area areaPages pages (v.place area areaPages pages)) ∧
      (¬ (v.granule ≠ 0 ∧ pages ≠ 0 ∧ v.granule.toNat ∣ area.toNat ∧ area.toNat + areaPages.toNat * v.granule.toNat < 2 ^ w) →
        v.place area areaPages pages = 0)) := by
  have h : Inv v := hv ▸ (inv_init granule).run ops
  refine ⟨fun i hl => ?_, h.apart, fun base pages flags run holder donor => ?_, fun addr len rights => h.covers_iff,
    fun area areaPages pages => ⟨fun ⟨hg, hp, ha, hf⟩ => h.place_lowest hg hp ha hf, h.place_refused⟩⟩
  · have hw := h.whole i hl
    exact ⟨hw.aligned, hw.pages, hw.fits⟩
  · rw [h.reserve_iff]
    constructor
    · exact fun hr => ⟨hr.granule, hr.aligned, hr.nonempty, hr.narrow, hr.fits, hr.clear, hr.entry⟩
    · rintro ⟨h1, h2, h3, h4, h5, h6, h7⟩
      exact ⟨h1, h2, h3, h4, h5, h6, h7⟩

/-- A granted range of two granules and a reservation behind a free granule. -/
def twoRanges : VirtualRanges 32 3 :=
  (VirtualRanges.init 0x1000).run
    [.reserve 0x1000 2 0 0 0 0, .grant 0x1000 2 3 0, .reserve 0x4000 1 0 0 0 0]

theorem ranges_sound_twoRanges : twoRanges.covers 0x1800 0x1000 1 = true ∧ ¬ twoRanges.Live ⟨2, by decide⟩ ∧
    Lowest twoRanges 0x1000 8 1 (twoRanges.place 0x1000 8 1) :=
  ⟨by decide +kernel, by decide +kernel,
    ((ranges_sound (v := twoRanges) 0x1000 _ rfl).2.2.2.2 0x1000 8 1).1 (by decide +kernel)⟩

/-- An area off the granule, no pages and an area up to the top of the address space answer 0 though the area is free. -/
theorem free_area_refused :
    ¬ Lowest (VirtualRanges.init 0x1000 : VirtualRanges 32 1) 0x1800 4 1
      ((VirtualRanges.init 0x1000 : VirtualRanges 32 1).place 0x1800 4 1) ∧
    ¬ Lowest (VirtualRanges.init 0x1000 : VirtualRanges 32 1) 0x1000 4 0
      ((VirtualRanges.init 0x1000 : VirtualRanges 32 1).place 0x1000 4 0) ∧
    ¬ Lowest (VirtualRanges.init 0x1000 : VirtualRanges 32 1) 0xffffe000 2 1
      ((VirtualRanges.init 0x1000 : VirtualRanges 32 1).place 0xffffe000 2 1) := by
  have hfree : ∀ {area areaPages pages : BitVec 32} (b : Nat), 0 < area.toNat → 0x1000 ∣ b → area.toNat ≤ b →
      b + pages.toNat * 0x1000 ≤ area.toNat + areaPages.toNat * 0x1000 →
      ¬ Lowest (VirtualRanges.init 0x1000 : VirtualRanges 32 1) area areaPages pages 0 := by
    intro area areaPages pages b hpos hd hlo hhi hl
    rcases hl with hl | ⟨hn, -⟩
    · exact absurd hl.1.above (Nat.not_le.2 hpos)
    · exact hn b ⟨hd, hlo, hhi, fun i hi => absurd rfl hi⟩
  refine ⟨?_, ?_, ?_⟩
  · exact hfree 0x2000 (by decide) (by decide) (by decide) (by decide)
  · exact hfree 0x1000 (by decide) (by decide) (by decide) (by decide)
  · exact hfree 0xffffe000 (by decide) (by decide) (by decide) (by decide)

end KickOS.Range
