import KickOS.Frame.Bitmap

/-! Over every sequence of calls the allocated frames are those of the bitmap and those handed out, the count is right, and an
allocation fails only where no frame, or no run of frames, is free. -/

namespace KickOS.Frame

open Lib.Sweep Lib.Extent

namespace FrameAllocator

variable {w : Nat} {a a' : FrameAllocator w} {i j n : Nat} {x : BitVec w}

theorem Inv.ge_reserved (h : Inv a) (hi : a.bit i = false) : a.reserved ≤ i := by
  by_contra hlt
  rw [h.bitmap i (Nat.not_le.1 hlt)] at hi
  cases hi

theorem Inv.alloc_spec (h : Inv a) (hw : 8 ∣ w) (h0 : 0 < w) :
    a.unallocated = ∅ ∧ a.alloc = (a, 0) ∨ ∃ j ∈ a.unallocated, a.alloc = a.takeOne j := by
  unfold alloc
  rcases Nat.eq_zero_or_pos a.free with hz | hpos
  · rw [if_pos hz]
    exact .inl ⟨Finset.card_eq_zero.1 (h.free ▸ hz), rfl⟩
  · rw [if_neg hpos.ne']
    right
    split_ifs with hq
    · exact ⟨a.hint, mem_unallocated.2 hq, rfl⟩
    · obtain ⟨f1, f2⟩ := scan_spec (a := a) (i := a.hint) hw h0 le_rfl
      obtain ⟨g1, g2⟩ := scan_spec (a := a) (i := a.reserved) hw h0 h.hint.2
      cases hs : a.scan a.frames a.hint with
      | some j => exact ⟨j, mem_unallocated_iff.2 (f1 j hs).2, rfl⟩
      | none =>
        cases ht : a.scan a.hint a.reserved with
        | some j => exact ⟨j, mem_unallocated_iff.2 (g1 j ht).2, rfl⟩
        | none =>
          -- neither pass found the frame that is free
          obtain ⟨k, hk⟩ := Finset.card_pos.1 (h.free ▸ hpos)
          obtain ⟨hkf, hkb⟩ := mem_unallocated.1 hk
          have hkt := mem_unallocated_iff.1 hk
          rcases Nat.lt_or_ge k a.hint with hlt | hge
          · rw [g2 ht k (h.ge_reserved hkb) hlt] at hkt
            cases hkt
          · rw [f2 hs k hge hkf] at hkt
            cases hkt

theorem runAt_subset {lo s : Nat} (hr : RunAt a.taken lo n s) : Finset.Ico s (s + n) ⊆ a.unallocated := by
  intro k hk
  obtain ⟨h1, h2⟩ := Finset.mem_Ico.1 hk
  exact mem_unallocated_iff.2 (hr.2 k h1 h2)

theorem Inv.allocRun_spec (h : Inv a) (hw : 8 ∣ w) (h0 : 0 < w) (hx : x ≠ 0) :
    (∀ s, ¬ RunAt a.taken a.reserved x.toNat s) ∧ a.allocRun x = (a, 0) ∨
    ∃ s, IsLeast {s | RunAt a.taken a.reserved x.toNat s} s ∧ a.allocRun x = a.takeRun s x.toNat := by
  have hpos : 0 < x.toNat := toNat_pos hx
  unfold allocRun
  rcases Nat.lt_or_ge a.free x.toNat with hlt | hge
  · rw [if_pos (.inr hlt)]
    refine .inl ⟨fun s hs => ?_, rfl⟩
    have hc := Finset.card_le_card (runAt_subset hs)
    rw [Nat.card_Ico, ← h.free] at hc
    omega
  · rw [if_neg (not_or.2 ⟨hx, Nat.not_lt.2 hge⟩)]
    obtain ⟨h1, h2⟩ := sweep_spec (a := a) hw h0 (At.start a.taken a.reserved hpos)
    cases hs : a.sweep x.toNat 0 a.reserved with
    | none => exact .inl ⟨h2 hs, rfl⟩
    | some s => exact .inr ⟨s, h1 s hs, rfl⟩

theorem bit_takeOne : (a.takeOne j).1.bit i = (a.bit i || decide (i ∈ ({j} : Finset Nat))) := by
  rw [bit_eq]
  change bitOf (setBit a.bits j) i = _
  rw [bitOf_setBit, ← bit_eq]
  congr 1
  rw [decide_eq_decide, Finset.mem_singleton]

theorem Inv.takeOne (h : Inv a) (hj : j ∈ a.unallocated) : Inv (a.takeOne j).1 := by
  obtain ⟨h1, h2⟩ := mem_unallocated.1 hj
  have hr := h.ge_reserved h2
  refine h.mark ⟨rfl, rfl, rfl, rfl⟩ (Finset.singleton_subset_iff.2 hj) (fun i => bit_takeOne)
    (by rw [Finset.card_singleton]; rfl) ⟨by change a.reserved ≤ j + 1; omega, h1⟩

theorem bit_takeRun {s : Nat} : (a.takeRun s n).1.bit i = (a.bit i || decide (i ∈ Finset.Ico s (s + n))) := by
  rw [bit_eq]
  change bitOf ((List.range' s n).foldl setBit a.bits) i = _
  rw [bitOf_setBits]
  congr 1
  rw [decide_eq_decide, List.mem_range'_1, Finset.mem_Ico]

theorem Inv.takeRun (h : Inv a) {s : Nat} (hr : RunAt a.taken a.reserved n s) (hn : 0 < n) : Inv (a.takeRun s n).1 := by
  have hsub := runAt_subset hr
  have hlast : s + n - 1 < a.frames := (mem_unallocated.1 (hsub (Finset.mem_Ico.2 ⟨by omega, by omega⟩))).1
  refine h.mark ⟨rfl, rfl, rfl, rfl⟩ hsub (fun i => bit_takeRun) ?_ ?_
  · rw [Nat.card_Ico, Nat.add_sub_cancel_left]
    rfl
  · have h1 := hr.1
    have h2 := h.hint
    change a.reserved ≤ (if a.hint < s + n then s + n else a.hint) ∧ (if a.hint < s + n then s + n else a.hint) ≤ a.frames
    split_ifs <;> omega

/-- The allocator after frame `j` is given back. -/
def freed (a : FrameAllocator w) (j : Nat) : FrameAllocator w :=
  { a with bits := clearBit a.bits j, free := a.free + 1, hint := if j < a.hint then j else a.hint }

/-- `release` frees a frame that is marked and is not the bitmap's own; any other address changes nothing. -/
theorem Inv.release_spec (h : Inv a) (x : BitVec w) :
    (∃ i, a.reserved ≤ i ∧ i < a.frames ∧ a.bit i = true ∧ x = a.address i ∧
      a.release x = (a.freed i, true)) ∨
    (∀ i, a.reserved ≤ i → i < a.frames → a.bit i = true → x ≠ a.address i) ∧ a.release x = (a, false) := by
  unfold release
  cases hi : a.indexOf x with
  | none =>
    refine .inr ⟨fun i _ hf _ he => ?_, rfl⟩
    rw [h.indexOf_iff.2 ⟨hf, he⟩] at hi
    cases hi
  | some i =>
    obtain ⟨hf, rfl⟩ := h.indexOf_iff.1 hi
    dsimp only
    rcases Nat.lt_or_ge i a.reserved with h1 | h1
    · rw [if_pos h1]
      refine .inr ⟨fun j hj hjf _ he => ?_, rfl⟩
      obtain rfl := h.address_inj hf hjf he
      omega
    · rw [if_neg (Nat.not_lt.2 h1)]
      cases h2 : a.bit i with
      | false =>
        refine .inr ⟨fun j _ hjf hb he => ?_, rfl⟩
        obtain rfl := h.address_inj hf hjf he
        rw [h2] at hb
        cases hb
      | true => exact .inl ⟨i, h1, hf, h2, rfl, rfl⟩

theorem bit_freed : (a.freed j).bit i = (a.bit i && decide (i ≠ j)) := bitOf_clearBit

theorem Inv.freed (h : Inv a) (hr : a.reserved ≤ j) (hf : j < a.frames) (hb : a.bit j = true) : Inv (a.freed j) := by
  have hu : (a.freed j).unallocated = insert j a.unallocated := by
    ext k
    rw [Finset.mem_insert, mem_unallocated, mem_unallocated, bit_freed, Bool.and_eq_false_iff, decide_eq_false_iff_not, not_not]
    constructor
    · rintro ⟨h1, h2 | h2⟩
      · exact .inr ⟨h1, h2⟩
      · exact .inl h2
    · rintro (rfl | ⟨h1, h2⟩)
      · exact ⟨hf, .inr rfl⟩
      · exact ⟨h1, .inl h2⟩
  refine ⟨h.base, h.granule, h.fits, h.reserved, fun i hi => ?_, ?_, ?_⟩
  · have hne : i ≠ j := by
      rintro rfl
      exact absurd hi (Nat.not_lt.2 hr)
    rw [bit_freed, h.bitmap i hi, decide_eq_true hne]
    rfl
  · have hn : j ∉ a.unallocated := by
      rw [mem_unallocated, hb]
      exact fun hn => absurd hn.2 (by decide)
    rw [hu, Finset.card_insert_of_notMem hn, ← h.free]
    rfl
  · have h2 := h.hint
    change a.reserved ≤ (if j < a.hint then j else a.hint) ∧ (if j < a.hint then j else a.hint) ≤ a.frames
    split_ifs <;> omega

/-- An allocator that was just set up: its range is the one given, and its bitmap lies in the frames it keeps. -/
structure Fresh (a : FrameAllocator w) (base size granule : BitVec w) : Prop where
  inv : Inv a
  base_eq : a.base = base.toNat
  granule_eq : a.granule = granule.toNat
  frames_eq : a.frames = size.toNat / granule.toNat
  bitmap : (a.frames + 7) / 8 ≤ a.reserved * a.granule
  bit : ∀ i < a.frames, a.bit i = decide (i < a.reserved)

theorem toNat_small {w c : Nat} (hc : c < 2 ^ 8) (hw : 8 ≤ w) : (BitVec.ofNat w c).toNat = c :=
  (BitVec.toNat_ofNat ..).trans (Nat.mod_eq_of_lt (hc.trans_le (Nat.pow_le_pow_right Nat.two_pos hw)))

theorem toNat_reserved (frames : BitVec w) {size granule : BitVec w} (hw : 8 ≤ w) (hg : 0 < granule.toNat) (hf : 0 < frames.toNat)
    (hs : frames.toNat * granule.toNat ≤ size.toNat) (hfew : frames.toNat + w ≤ 2 ^ w) :
    ((frames + 7) / 8).toNat = (frames.toNat + 7) / 8 ∧
    (((frames + 7) / 8 + granule - 1) / granule).toNat = ((frames.toNat + 7) / 8 + (granule.toNat - 1)) / granule.toNat := by
  have hb : ((frames + 7) / 8).toNat = (frames.toNat + 7) / 8 := by
    rw [BitVec.toNat_udiv, BitVec.toNat_add]
    change (frames.toNat + (BitVec.ofNat w 7).toNat) % 2 ^ w / (BitVec.ofNat w 8).toNat = _
    rw [toNat_small (by decide) hw, toNat_small (by decide) hw, Nat.mod_eq_of_lt (by omega)]
  refine ⟨hb, ?_⟩
  have hle : frames.toNat + granule.toNat ≤ frames.toNat * granule.toNat + 1 := by
    obtain ⟨f, hf'⟩ := Nat.exists_eq_add_of_lt hf
    obtain ⟨g, hg'⟩ := Nat.exists_eq_add_of_lt hg
    rw [hf', hg']
    have h1 : (0 + f + 1) * (0 + g + 1) = f * g + f + g + 1 := by ring
    omega
  have hlt := size.isLt
  have hassoc : (frames + 7) / 8 + granule - 1 = (frames + 7) / 8 + (granule - 1) := by
    rw [BitVec.sub_eq_add_neg, BitVec.sub_eq_add_neg, BitVec.add_assoc]
  rw [hassoc, BitVec.toNat_udiv, BitVec.toNat_add, hb, toNat_pred hg, Nat.mod_eq_of_lt (by omega)]

theorem unallocated_of_bit (h : ∀ i < a.frames, a.bit i = decide (i < a.reserved)) :
    a.unallocated = Finset.Ico a.reserved a.frames := by
  ext i
  rw [mem_unallocated, Finset.mem_Ico, and_comm]
  refine and_congr_left fun hi => ?_
  rw [h i hi, decide_eq_false_iff_not, Nat.not_lt]

theorem fresh_init {bits : Nat → BitVec 8} {base size granule : BitVec w} (hw : 8 ≤ w)
    (hfit : base.toNat + size.toNat ≤ 2 ^ w) (hfew : size.toNat / granule.toNat + w ≤ 2 ^ w)
    (h : init bits base size granule = (a, true)) : Fresh a base size granule := by
  unfold init at h
  dsimp only at h
  split_ifs at h with h1 h2 h3 h4
  · exact absurd (Prod.mk.inj h).2 (by decide)
  · exact absurd (Prod.mk.inj h).2 (by decide)
  · exact absurd (Prod.mk.inj h).2 (by decide)
  · exact absurd (Prod.mk.inj h).2 (by decide)
  · obtain ⟨ha, -⟩ := Prod.mk.inj h
    obtain ⟨hbase, hp⟩ := not_or.1 h1
    have hpow : granule.toNat.isPowerOfTwo := by
      rw [Bool.not_eq_false, Range.isPow2, Bool.and_eq_true, bne_iff_ne, beq_iff_eq] at hp
      exact isPowerOfTwo_iff.1 hp
    have hg := Nat.pos_of_isPowerOfTwo hpow
    have hfr : (size / granule).toNat = size.toNat / granule.toNat := BitVec.toNat_udiv
    have hmul : (size / granule).toNat * granule.toNat ≤ size.toNat := hfr ▸ Nat.div_mul_le_self ..
    obtain ⟨hb, hr⟩ := toNat_reserved (size / granule) hw hg (toNat_pos h3) hmul (hfr ▸ hfew)
    have hlt := BitVec.lt_def.1 (BitVec.not_le.1 h4)
    generalize ((size / granule + 7) / 8 + granule - 1) / granule = reserved at ha hr hlt h4
    have hbit : ∀ i < a.frames, a.bit i = decide (i < a.reserved) := by
      subst ha
      intro i hi
      rw [bit_eq, hb]
      exact bitOf_initBits hi
    have hfree : a.free = a.unallocated.card := by
      rw [unallocated_of_bit hbit, Nat.card_Ico]
      subst ha
      exact BitVec.toNat_sub_of_le (BitVec.le_def.2 hlt.le)
    have hmap : (a.frames + 7) / 8 ≤ a.reserved * a.granule := by
      subst ha
      dsimp only
      have h5 := Nat.div_add_mod (((size / granule).toNat + 7) / 8 + (granule.toNat - 1)) granule.toNat
      have h6 := Nat.mod_lt (((size / granule).toNat + 7) / 8 + (granule.toNat - 1)) hg
      rw [← hr, Nat.mul_comm] at h5
      omega
    subst ha
    refine ⟨⟨toNat_pos hbase, hpow, ?_, hlt, fun i hi => ?_, hfree, le_rfl, hlt.le⟩, rfl, rfl, hfr, hmap, hbit⟩
    · dsimp only
      omega
    · exact (hbit i (lt_trans hi hlt)).trans (decide_eq_true hi)

end FrameAllocator

open FrameAllocator

variable {w : Nat} {s : St w} {a₀ : FrameAllocator w}

/-- The frames handed out are those marked behind the bitmap's own. -/
structure Account (a₀ : FrameAllocator w) (s : St w) : Prop where
  inv : Inv s.pool
  same : Same a₀ s.pool
  held : ∀ x, x ∈ s.held ↔ ∃ i, s.pool.reserved ≤ i ∧ i < s.pool.frames ∧ s.pool.bit i = true ∧ x = s.pool.address i

theorem Account.init {a : FrameAllocator w} {base size granule : BitVec w} (h : Fresh a base size granule) :
    Account a { pool := a } := by
  refine ⟨h.inv, ⟨rfl, rfl, rfl, rfl⟩, fun x => ⟨fun hx => absurd hx (Finset.notMem_empty x), ?_⟩⟩
  rintro ⟨i, h1, h2, h3, -⟩
  rw [h.bit i h2, decide_eq_true_iff] at h3
  exact absurd h3 (Nat.not_lt.2 h1)

theorem Account.mark (h : Account a₀ s) {a : FrameAllocator w} (ha : Inv a) (hs : Same s.pool a) {S : Finset Nat}
    (hS : S ⊆ s.pool.unallocated) (hbit : ∀ i, a.bit i = (s.pool.bit i || decide (i ∈ S))) {held : Finset (BitVec w)}
    (hheld : ∀ x, x ∈ held ↔ x ∈ s.held ∨ ∃ i ∈ S, x = s.pool.address i) : Account a₀ { pool := a, held := held } := by
  have haddr := hs.address
  refine ⟨ha, h.same.trans hs, fun x => ?_⟩
  dsimp only
  rw [hheld, h.held, hs.reserved, hs.frames]
  constructor
  · rintro (⟨i, h1, h2, h3, h4⟩ | ⟨i, hi, hx⟩)
    · exact ⟨i, h1, h2, by rw [hbit, h3, Bool.true_or], h4.trans (haddr i).symm⟩
    · obtain ⟨h1, h2⟩ := mem_unallocated.1 (hS hi)
      exact ⟨i, h.inv.ge_reserved h2, h1, by rw [hbit, decide_eq_true hi, Bool.or_true], hx.trans (haddr i).symm⟩
  · rintro ⟨i, h1, h2, h3, h4⟩
    rw [hbit, Bool.or_eq_true, decide_eq_true_iff] at h3
    rcases h3 with h3 | h3
    · exact .inl ⟨i, h1, h2, h3, h4.trans (haddr i)⟩
    · exact .inr ⟨i, h3, h4.trans (haddr i)⟩

theorem Account.freed (h : Account a₀ s) {i : Nat} (h1 : s.pool.reserved ≤ i) (h2 : i < s.pool.frames)
    (h3 : s.pool.bit i = true) : Account a₀ { pool := s.pool.freed i, held := s.held.erase (s.pool.address i) } := by
  refine ⟨h.inv.freed h1 h2 h3, h.same.trans ⟨rfl, rfl, rfl, rfl⟩, fun x => ?_⟩
  rw [Finset.mem_erase, h.held]
  constructor
  · rintro ⟨hne, j, hj1, hj2, hj3, rfl⟩
    have hji : j ≠ i := fun he => hne (by rw [he])
    exact ⟨j, hj1, hj2, by rw [bit_freed, hj3, decide_eq_true hji]; rfl, rfl⟩
  · rintro ⟨j, hj1, hj2, hj3, rfl⟩
    rw [bit_freed, Bool.and_eq_true, decide_eq_true_iff] at hj3
    exact ⟨fun he => hj3.2 (h.inv.address_inj hj2 h2 he), j, hj1, hj2, hj3.1, rfl⟩

theorem address_add (a : FrameAllocator w) (i k : Nat) : a.address i + BitVec.ofNat w (k * a.granule) = a.address (i + k) := by
  unfold FrameAllocator.address
  rw [← BitVec.ofNat_add, Nat.add_mul, Nat.add_assoc]

theorem Account.step (h : Account a₀ s) (hw : 8 ∣ w) (h0 : 0 < w) (op : Op w) : Account a₀ (s.step op) := by
  cases op with
  | alloc =>
    dsimp only [St.step]
    rcases h.inv.alloc_spec hw h0 with ⟨-, he⟩ | ⟨j, hj, he⟩
    · rw [he, if_pos rfl]
      exact h
    · obtain ⟨hf, -⟩ := mem_unallocated.1 hj
      have hne : (s.pool.takeOne j).2 ≠ 0 := h.inv.address_ne_zero hf
      rw [he, if_neg hne]
      refine h.mark (h.inv.takeOne hj) ⟨rfl, rfl, rfl, rfl⟩ (Finset.singleton_subset_iff.2 hj) (fun i => bit_takeOne) fun x => ?_
      rw [Finset.mem_insert, or_comm]
      refine or_congr_right ?_
      constructor
      · exact fun hx => ⟨j, Finset.mem_singleton_self j, hx⟩
      · rintro ⟨i, hi, hx⟩
        exact Finset.mem_singleton.1 hi ▸ hx
  | allocRun pages =>
    dsimp only [St.step]
    rcases eq_or_ne pages 0 with rfl | hp
    · have he : s.pool.allocRun 0 = (s.pool, 0) := if_pos (.inl rfl)
      rw [he, if_pos rfl]
      exact h
    · rcases h.inv.allocRun_spec hw h0 hp with ⟨-, he⟩ | ⟨t, ht, he⟩
      · rw [he, if_pos rfl]
        exact h
      · have hpos := toNat_pos hp
        have hsub := runAt_subset ht.1
        have hf : t < s.pool.frames := (mem_unallocated.1 (hsub (Finset.mem_Ico.2 ⟨le_rfl, by omega⟩))).1
        have hne : (s.pool.takeRun t pages.toNat).2 ≠ 0 := h.inv.address_ne_zero hf
        rw [he, if_neg hne]
        refine h.mark (h.inv.takeRun ht.1 hpos) ⟨rfl, rfl, rfl, rfl⟩ hsub (fun i => bit_takeRun) fun x => ?_
        rw [Finset.mem_union, Finset.mem_image]
        refine or_congr_right ?_
        constructor
        · rintro ⟨k, hk, rfl⟩
          refine ⟨t + k, Finset.mem_Ico.2 ⟨by omega, ?_⟩, address_add ..⟩
          exact Nat.add_lt_add_left (Finset.mem_range.1 hk) t
        · rintro ⟨i, hi, rfl⟩
          obtain ⟨hi1, hi2⟩ := Finset.mem_Ico.1 hi
          refine ⟨i - t, Finset.mem_range.2 (by omega), (address_add ..).trans ?_⟩
          rw [Nat.add_sub_cancel' hi1]
  | release addr =>
    dsimp only [St.step]
    rcases h.inv.release_spec addr with ⟨i, h1, h2, h3, rfl, he⟩ | ⟨-, he⟩
    · rw [he, if_pos rfl]
      exact h.freed h1 h2 h3
    · rw [he, if_neg Bool.false_ne_true]
      exact h

theorem Account.run (h : Account a₀ s) (hw : 8 ∣ w) (h0 : 0 < w) (ops : List (Op w)) : Account a₀ (s.run ops) := by
  induction ops generalizing s with
  | nil => exact h
  | cons op ops ih => exact ih (h.step hw h0 op)

theorem Account.isAllocated_iff (h : Account a₀ s) (x : BitVec w) :
    s.pool.isAllocated x = true ↔ (∃ i < a₀.reserved, x = a₀.address i) ∨ x ∈ s.held := by
  have haddr := h.same.address
  have hlt := h.inv.reserved
  rw [h.held]
  unfold FrameAllocator.isAllocated
  constructor
  · intro hx
    cases hi : s.pool.indexOf x with
    | none =>
      rw [hi] at hx
      cases hx
    | some i =>
      rw [hi] at hx
      obtain ⟨hf, he⟩ := h.inv.indexOf_iff.1 hi
      rcases Nat.lt_or_ge i s.pool.reserved with hr | hr
      · exact .inl ⟨i, h.same.reserved ▸ hr, he.trans (haddr i)⟩
      · exact .inr ⟨i, hr, hf, hx, he⟩
  · rintro (⟨i, hi, rfl⟩ | ⟨i, h1, h2, h3, rfl⟩)
    · have hi' : i < s.pool.reserved := h.same.reserved.symm ▸ hi
      rw [h.inv.indexOf_iff.2 ⟨hi'.trans hlt, (haddr i).symm⟩]
      exact h.inv.bitmap i hi'
    · rw [h.inv.indexOf_iff.2 ⟨h2, rfl⟩]
      exact h3

theorem Account.runAt_iff (h : Account a₀ s) {n i : Nat} (hn : 0 < n) :
    RunAt s.pool.taken s.pool.reserved n i ↔ Finset.Ico i (i + n) ⊆ s.pool.unallocated := by
  refine ⟨runAt_subset, fun hsub => ⟨?_, fun k h1 h2 => mem_unallocated_iff.1 (hsub (Finset.mem_Ico.2 ⟨h1, h2⟩))⟩⟩
  exact h.inv.ge_reserved (mem_unallocated.1 (hsub (Finset.mem_Ico.2 ⟨le_rfl, by omega⟩))).2

/-- An allocator set up over a range of the address space, over every sequence of calls: the allocated frames are the bitmap's
own and those handed out, the count is that of the others, an allocation fails exactly where no frame or no run is free and
takes the lowest run, a release of a frame handed out takes it back, and of anything else changes nothing. -/
theorem frames_sound (hw : 8 ∣ w) (h0 : 0 < w) (bits : Nat → BitVec 8) (base size granule : BitVec w) {a : FrameAllocator w}
    (hfit : base.toNat + size.toNat ≤ 2 ^ w) (hfew : size.toNat / granule.toNat + w ≤ 2 ^ w)
    (hinit : FrameAllocator.init bits base size granule = (a, true)) (ops : List (Op w)) (hs : s = St.run { pool := a } ops) :
    (∀ x, s.pool.isAllocated x = true ↔ (∃ i < a.reserved, x = a.address i) ∨ x ∈ s.held) ∧
    s.pool.free = s.pool.unallocated.card ∧
    (s.pool.alloc.2 = 0 ↔ s.pool.unallocated = ∅) ∧
    (s.pool.alloc.2 ≠ 0 → ∃ i ∈ s.pool.unallocated, a.reserved ≤ i ∧ s.pool.alloc.2 = a.address i) ∧
    (∀ n : BitVec w, n ≠ 0 →
      ((s.pool.allocRun n).2 = 0 ↔ ∀ i, ¬ Finset.Ico i (i + n.toNat) ⊆ s.pool.unallocated) ∧
      ((s.pool.allocRun n).2 ≠ 0 → ∃ i, IsLeast {i | Finset.Ico i (i + n.toNat) ⊆ s.pool.unallocated} i ∧ a.reserved ≤ i ∧
        (s.pool.allocRun n).2 = a.address i)) ∧
    (∀ x ∈ s.held, (s.pool.release x).2 = true) ∧
    (∀ x, x ∉ s.held → s.pool.release x = (s.pool, false)) ∧
    (a.frames + 7) / 8 ≤ a.reserved * granule.toNat ∧
    ∀ i ∈ s.pool.unallocated, i < size.toNat / granule.toNat ∧ (a.address i).toNat = base.toNat + i * granule.toNat := by
  have hw8 : 8 ≤ w := Nat.le_of_dvd h0 hw
  have hfr := fresh_init hw8 hfit hfew hinit
  have h : Account a s := hs ▸ (Account.init hfr).run hw h0 ops
  have haddr := h.same.address
  have hres : ∀ i ∈ s.pool.unallocated, a.reserved ≤ i :=
    fun i hi => h.same.reserved ▸ h.inv.ge_reserved (mem_unallocated.1 hi).2
  refine ⟨h.isAllocated_iff, h.inv.free, ?_, ?_, fun n hn => ⟨?_, ?_⟩, fun x hx => ?_, fun x hx => ?_,
    hfr.granule_eq ▸ hfr.bitmap, fun i hi => ?_⟩
  · rcases h.inv.alloc_spec hw h0 with ⟨hz, he⟩ | ⟨j, hj, he⟩
    · rw [he]
      exact ⟨fun _ => hz, fun _ => rfl⟩
    · have hne : (s.pool.takeOne j).2 ≠ 0 := h.inv.address_ne_zero (mem_unallocated.1 hj).1
      rw [he]
      exact ⟨fun hz => absurd hz hne, fun hz => absurd (hz ▸ hj) (Finset.notMem_empty j)⟩
  · intro hne
    rcases h.inv.alloc_spec hw h0 with ⟨-, he⟩ | ⟨j, hj, he⟩
    · rw [he] at hne
      exact absurd rfl hne
    · rw [he]
      exact ⟨j, hj, hres j hj, haddr j⟩
  · have hpos := toNat_pos hn
    rcases h.inv.allocRun_spec hw h0 hn with ⟨hno, he⟩ | ⟨t, ht, he⟩
    · rw [he]
      exact ⟨fun _ i hi => hno i ((h.runAt_iff hpos).2 hi), fun _ => rfl⟩
    · have hsub := runAt_subset ht.1
      have hf := (mem_unallocated.1 (hsub (Finset.mem_Ico.2 ⟨le_rfl, by omega⟩))).1
      have hne : (s.pool.takeRun t n.toNat).2 ≠ 0 := h.inv.address_ne_zero hf
      rw [he]
      exact ⟨fun hz => absurd hz hne, fun hno => absurd hsub (hno t)⟩
  · intro hne
    have hpos := toNat_pos hn
    rcases h.inv.allocRun_spec hw h0 hn with ⟨-, he⟩ | ⟨t, ht, he⟩
    · rw [he] at hne
      exact absurd rfl hne
    · rw [he]
      refine ⟨t, ⟨runAt_subset ht.1, fun i hi => ht.2 ((h.runAt_iff hpos).2 hi)⟩, ?_, haddr t⟩
      exact h.same.reserved ▸ ht.1.1
  · rcases h.inv.release_spec x with ⟨i, -, -, -, -, he⟩ | ⟨hno, -⟩
    · rw [he]
    · obtain ⟨i, h1, h2, h3, h4⟩ := (h.held x).1 hx
      exact absurd h4 (hno i h1 h2 h3)
  · rcases h.inv.release_spec x with ⟨i, h1, h2, h3, h4, -⟩ | ⟨-, he⟩
    · exact absurd ((h.held x).2 ⟨i, h1, h2, h3, h4⟩) hx
    · exact he
  · have hi' : i < a.frames := h.same.frames ▸ (mem_unallocated.1 hi).1
    exact ⟨hfr.frames_eq ▸ hi', by rw [hfr.inv.toNat_address hi', hfr.base_eq, hfr.granule_eq]⟩

/-- Eight frames, of which the first holds the bitmap. -/
def eightFrames : FrameAllocator 32 := (FrameAllocator.init (fun _ => 0xff) 0x1000 0x8000 0x1000).1

theorem frames_sound_eightFrames : eightFrames.frames = 8 ∧ eightFrames.reserved = 1 ∧
    (St.run { pool := eightFrames } [.alloc, .alloc, .release 0x2000]).pool.free =
      (St.run { pool := eightFrames } [.alloc, .alloc, .release 0x2000]).pool.unallocated.card :=
  ⟨by decide +kernel, by decide +kernel,
    (frames_sound (by decide) (by decide) (fun _ => 0xff) 0x1000 0x8000 0x1000 (a := eightFrames) (by decide +kernel)
      (by decide +kernel) (Prod.ext rfl (by decide +kernel)) [.alloc, .alloc, .release 0x2000] rfl).2.1⟩

/-- A range that wraps hands out its frame at address 0 as if none were free; with almost as many frames as words the bitmap's
own size wraps, and nothing of it is cleared. -/
theorem range_wraps :
    (FrameAllocator.init (fun _ => 0) 0xfffff000 0x4000 0x1000 : FrameAllocator 32 × Bool).2 = true ∧
    (FrameAllocator.init (fun _ => 0) 0xfffff000 0x4000 0x1000 : FrameAllocator 32 × Bool).1.alloc.2 = 0 ∧
    1 ∈ (FrameAllocator.init (fun _ => 0) 0xfffff000 0x4000 0x1000 : FrameAllocator 32 × Bool).1.unallocated ∧
    (FrameAllocator.init (fun _ => 0xff) 1 0xffffffff 1 : FrameAllocator 32 × Bool).2 = true ∧
    (FrameAllocator.init (fun _ => 0xff) 1 0xffffffff 1 : FrameAllocator 32 × Bool).1.reserved = 0 ∧
    (FrameAllocator.init (fun _ => 0xff) 1 0xffffffff 1 : FrameAllocator 32 × Bool).1.isAllocated 1 = true :=
  ⟨by decide +kernel, by decide +kernel, mem_unallocated.2 (by decide +kernel), by decide +kernel, by decide +kernel,
    by decide +kernel⟩

end KickOS.Frame
