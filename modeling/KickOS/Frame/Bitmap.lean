import KickOS.Frame.Model

/-! What the word scans of the bitmap find: a pass stops at the first free frame, the sweep at the lowest run of them. Bits past
the last frame read as taken, so the last word needs no mask. -/

namespace KickOS.Frame.FrameAllocator

open Lib.Sweep

variable {w : Nat} {a : FrameAllocator w} {i j stop n lo : Nat}

/-- What a scan reads: frames past the last one are taken. -/
def taken (a : FrameAllocator w) (i : Nat) : Bool := a.bit i || decide (a.frames ≤ i)

theorem taken_of_ge (h : a.frames ≤ i) : a.taken i = true := by
  unfold taken
  rw [decide_eq_true h, Bool.or_true]

theorem taken_eq_false : a.taken i = false ↔ i < a.frames ∧ a.bit i = false := by
  unfold taken
  rw [Bool.or_eq_false_iff, decide_eq_false_iff_not, Nat.not_le, and_comm]

section Word

variable {widx : Nat}

theorem bit_word (hw : 8 ∣ w) (hj : j < w) :
    a.bit (widx * w + j) = (a.bits (widx * (w / 8) + j / 8)).getLsbD (j % 8) := by
  obtain ⟨c, rfl⟩ := hw
  have h1 : (widx * (8 * c) + j) / 8 = widx * c + j / 8 := by
    rw [Nat.mul_left_comm, Nat.mul_add_div (by decide)]
  have h2 : (widx * (8 * c) + j) % 8 = j % 8 := by
    rw [Nat.mul_left_comm, Nat.mul_add_mod]
  unfold bit
  rw [h1, h2, Nat.mul_div_cancel_left c (by decide)]

theorem getLsbD_scanWord (hw : 8 ∣ w) (hj : j < w) (hf : widx * w < a.frames) :
    (a.scanWord widx).getLsbD j = a.taken (widx * w + j) := by
  unfold scanWord
  dsimp only
  split_ifs with h
  · have hlt : ¬ a.frames ≤ widx * w + j := by omega
    unfold wordAt
    rw [getLsbD_bytes (fun k => a.bits (widx * (w / 8) + k)) hw hj, BitVec.ofNat_eq_ofNat, BitVec.getLsbD_zero,
      Bool.false_or, ← bit_word hw hj, taken, decide_eq_false hlt, Bool.or_false]
  · have hfun : (fun (v : BitVec w) k => if (a.frames + 7) / 8 ≤ widx * (w / 8) + k then v
        else v ||| (a.bits (widx * (w / 8) + k)).setWidth w <<< (8 * k)) =
        fun v k => v ||| (if (a.frames + 7) / 8 ≤ widx * (w / 8) + k then 0 else a.bits (widx * (w / 8) + k)).setWidth
          w <<< (8 * k) := by
      funext v k
      split_ifs
      · simp
      · rfl
    rw [hfun, getLsbD_bytes (fun k => if (a.frames + 7) / 8 ≤ widx * (w / 8) + k then 0 else a.bits (widx * (w / 8) + k)) hw hj,
      BitVec.getLsbD_shiftLeft, BitVec.getLsbD_allOnes, taken, bit_word hw hj, decide_eq_true hj, Bool.or_comm]
    have hmask : (!decide (j < a.frames - widx * w)) = decide (a.frames ≤ widx * w + j) := by
      rw [← decide_not, decide_eq_decide]
      omega
    rw [Bool.true_and, hmask, decide_eq_true (by omega : j - (a.frames - widx * w) < w), Bool.and_true]
    split_ifs with hb
    · -- a byte past the bitmap holds no frame
      have hge : a.frames ≤ widx * w + j := by
        obtain ⟨c, rfl⟩ := hw
        rw [Nat.mul_div_cancel_left c (by decide)] at hb
        have : widx * (8 * c) = 8 * (widx * c) := Nat.mul_left_comm ..
        omega
      rw [decide_eq_true hge, Bool.or_true, Bool.or_true]
    · rfl

theorem first_le (i w : Nat) : i / w * w ≤ i := Nat.div_mul_le_self i w

theorem lt_first_add (h0 : 0 < w) : i < i / w * w + w := by
  have h := Nat.div_add_mod i w
  have h' := Nat.mod_lt i h0
  rw [Nat.mul_comm] at h
  omega

theorem getLsbD_above {k : Nat} (hj : j < w) : (BitVec.allOnes w <<< k).getLsbD j = decide (k ≤ j) := by
  rw [BitVec.getLsbD_shiftLeft, BitVec.getLsbD_allOnes, decide_eq_true hj, decide_eq_true (by omega : j - k < w), Bool.and_true,
    Bool.true_and, ← decide_not]
  exact decide_eq_decide.2 Nat.not_lt

end Word

theorem scan_spec (hw : 8 ∣ w) (h0 : 0 < w) (hs : stop ≤ a.frames) :
    (∀ j, a.scan stop i = some j → i ≤ j ∧ a.taken j = false) ∧
    (a.scan stop i = none → ∀ k, i ≤ k → k < stop → a.taken k = true) := by
  fun_induction a.scan stop i with
  | case1 i hi first freeBits hne =>
    have hf : i / w * w < a.frames := (first_le i w).trans_lt (hi.1.trans_le hs)
    refine ⟨fun j hj => ?_, fun h => by cases h⟩
    cases hj
    have hc := ctz_lt hne
    have hb := BitVec.getLsbD_true_ctz_of_ne_zero hne
    rw [BitVec.getLsbD_and, getLsbD_above hc, BitVec.getLsbD_not, decide_eq_true hc, Bool.true_and, getLsbD_scanWord hw hc hf,
      Bool.and_eq_true, decide_eq_true_iff, Bool.not_eq_true'] at hb
    exact ⟨by omega, hb.1⟩
  | case2 i hi first freeBits hz ih =>
    have hf : i / w * w < a.frames := (first_le i w).trans_lt (hi.1.trans_le hs)
    have hlt : i < first + w := lt_first_add h0
    refine ⟨fun j hj => ?_, fun h k hk hks => ?_⟩
    · obtain ⟨h1, h2⟩ := ih.1 j hj
      exact ⟨by omega, h2⟩
    · rcases Nat.lt_or_ge k (first + w) with hkf | hkf
      · -- no free bit from `i` on in this word
        have hc : k - first < w := by omega
        have hle : i - first ≤ k - first := by omega
        have hb : freeBits.getLsbD (k - first) = false := by
          rw [not_not.1 hz]
          exact BitVec.getLsbD_zero
        rw [BitVec.getLsbD_and, getLsbD_above hc, BitVec.getLsbD_not, decide_eq_true hc, Bool.true_and, getLsbD_scanWord hw hc hf,
          decide_eq_true hle, Bool.and_true, Bool.not_eq_false'] at hb
        have hke : i / w * w + (k - first) = k := Nat.add_sub_cancel' ((first_le i w).trans hk)
        rwa [hke] at hb
      · exact ih.2 h k hkf hks
  | case3 i hi =>
    refine ⟨fun j hj => absurd hj (by simp), fun _ k hk hks => ?_⟩
    omega

/-- What `sweepWord` reads of a word: the taken frames from `p` on. -/
def Reads (a : FrameAllocator w) (first p : Nat) (v : BitVec w) : Prop :=
  ∀ j < w, v.getLsbD j = (a.taken (first + j) && decide (p ≤ first + j))

theorem Reads.clear {first p : Nat} {v : BitVec w} (h : a.Reads first p v) (hp : first ≤ p) {q : Nat} (hq : q ≤ first + w)
    (hz : ∀ j, first + j < q → v.getLsbD j = false) : Clear a.taken p q := by
  intro k hk hkq
  have hb := hz (k - first) (by omega)
  have hke : first + (k - first) = k := by omega
  rw [h (k - first) (by omega), hke, decide_eq_true hk, Bool.and_true] at hb
  exact hb

theorem sweepWord_spec {first run p : Nat} {v : BitVec w} (hv : a.Reads first p v) (hp : first ≤ p) (hpw : p ≤ first + w)
    (h : At a.taken lo n p run) :
    (∀ s, sweepWord n first v run p = .inl s → IsLeast {s | RunAt a.taken lo n s} s) ∧
    (∀ run' p', sweepWord n first v run p = .inr (run', p') →
      At a.taken lo n p' run' ∧ p ≤ p' ∧ p' ≤ first + w ∧ Clear a.taken p' (first + w)) := by
  fun_induction sweepWord n first v run p with
  | case1 v run p hne q hn =>
    have hc := ctz_lt hne
    have hb := BitVec.getLsbD_true_ctz_of_ne_zero hne
    rw [hv _ hc, Bool.and_eq_true, decide_eq_true_iff] at hb
    have hcl : Clear a.taken p q := hv.clear hp (by omega) fun j hj => BitVec.getLsbD_false_of_lt_ctz (by omega)
    refine ⟨fun s hs => ?_, fun _ _ hs => absurd hs (by simp)⟩
    obtain rfl := Sum.inl.inj hs
    exact h.found hcl hn hb.2
  | case2 v run p hne q hn ih =>
    have hc := ctz_lt hne
    have hb := BitVec.getLsbD_true_ctz_of_ne_zero hne
    rw [hv _ hc, Bool.and_eq_true, decide_eq_true_iff] at hb
    have hcl : Clear a.taken p q := hv.clear hp (by omega) fun j hj => BitVec.getLsbD_false_of_lt_ctz (by omega)
    have h' : At a.taken lo n (q + 1) 0 := (h.advance hcl (Nat.not_le.1 hn) hb.2).passed hb.1
    have hv' : a.Reads first (q + 1) (v &&& (v - 1)) := by
      intro j hj
      rw [getLsbD_and_pred hne, hv j hj, Bool.and_assoc]
      rcases Nat.lt_trichotomy j v.ctz.toNat with hlt | heq | hgt
      · have hz := BitVec.getLsbD_false_of_lt_ctz hlt
        rw [hv j hj] at hz
        rw [← Bool.and_assoc, hz, Bool.false_and, decide_eq_false (by omega : ¬ q + 1 ≤ first + j), Bool.and_false]
      · rw [decide_eq_false (not_not.2 heq), Bool.and_false, Bool.and_false, decide_eq_false (by omega : ¬ q + 1 ≤ first + j),
          Bool.and_false]
      · rw [decide_eq_true (by omega : p ≤ first + j), decide_eq_true hgt.ne', Bool.and_true,
          decide_eq_true (by omega : q + 1 ≤ first + j)]
    obtain ⟨h1, h2⟩ := ih hv' (by omega) (by omega) h'
    refine ⟨h1, fun run' p' he => ?_⟩
    obtain ⟨h3, h4, h5⟩ := h2 run' p' he
    exact ⟨h3, by omega, h5⟩
  | case3 v run p hz =>
    refine ⟨fun s hs => absurd hs (by simp), fun run' p' hs => ?_⟩
    obtain ⟨rfl, rfl⟩ := Prod.mk.inj (Sum.inr.inj hs)
    refine ⟨h, le_rfl, hpw, hv.clear hp le_rfl fun j _ => ?_⟩
    rw [not_not.1 hz]
    exact BitVec.getLsbD_zero

theorem reads_scanWord (hw : 8 ∣ w) (hi : i < a.frames) :
    a.Reads (i / w * w) i (a.scanWord (i / w) &&& BitVec.allOnes w <<< (i - i / w * w)) := by
  intro j hj
  have hf : i / w * w < a.frames := (first_le i w).trans_lt hi
  have hfi := first_le i w
  rw [BitVec.getLsbD_and, getLsbD_scanWord hw hj hf, getLsbD_above hj]
  congr 1
  rw [decide_eq_decide]
  omega

theorem sweep_spec (hw : 8 ∣ w) (h0 : 0 < w) {run : Nat} (h : At a.taken lo n i run) :
    (∀ s, a.sweep n run i = some s → IsLeast {s | RunAt a.taken lo n s} s) ∧
    (a.sweep n run i = none → ∀ s, ¬ RunAt a.taken lo n s) := by
  fun_induction a.sweep n run i with
  | case1 run i hi first above tk heq ih =>
    have hf : i / w * w < a.frames := (first_le i w).trans_lt hi.1
    have hlt : i < first + w := lt_first_add h0
    refine ih (h.passed_all (fun k hk hkf => ?_) hlt)
    have hc : k - first < w := by omega
    have hle : i - first ≤ k - first := by omega
    have hb : tk.getLsbD (k - first) = true := by
      rw [heq, getLsbD_above hc]
      exact decide_eq_true hle
    rw [BitVec.getLsbD_and, getLsbD_scanWord hw hc hf, Bool.and_eq_true] at hb
    have hke : i / w * w + (k - first) = k := Nat.add_sub_cancel' ((first_le i w).trans hk)
    exact hke ▸ hb.1
  | case2 run i hi first above tk hne s hs =>
    obtain ⟨h1, -⟩ := sweepWord_spec (reads_scanWord hw hi.1) (first_le i w) (lt_first_add h0).le h
    refine ⟨fun s' hs' => ?_, fun hs' => absurd hs' (by simp)⟩
    cases hs'
    exact h1 s hs
  | case3 run i hi first above tk hne run' p' hs hn =>
    obtain ⟨-, h2⟩ := sweepWord_spec (reads_scanWord hw hi.1) (first_le i w) (lt_first_add h0).le h
    obtain ⟨h3, -, hle, hcl⟩ := h2 run' p' hs
    refine ⟨fun s hs' => ?_, fun hs' => absurd hs' (by simp)⟩
    cases hs'
    exact h3.found hcl hn hle
  | case4 run i hi first above tk hne run' p' hs hn ih =>
    obtain ⟨-, h2⟩ := sweepWord_spec (reads_scanWord hw hi.1) (first_le i w) (lt_first_add h0).le h
    obtain ⟨h3, -, hle, hcl⟩ := h2 run' p' hs
    exact ih (h3.advance hcl (Nat.not_le.1 hn) hle)
  | case5 run i hi =>
    refine ⟨fun s hs => absurd hs (by simp), fun _ s hs => ?_⟩
    -- a run that is left ends past the last frame
    have h1 := h.none s hs
    have hn := h.pos
    have hge : a.frames ≤ i := Nat.not_lt.1 fun hlt => hi ⟨hlt, h0⟩
    have ht := hs.2 (s + n - 1) (by omega) (by omega)
    rw [taken_of_ge (by omega)] at ht
    cases ht

/-! ### What the allocator's calls do to the bitmap, and the account of its frames that they keep -/

open Lib.Extent

variable {a' : FrameAllocator w} {x : BitVec w}

section Bits

variable {bits : Nat → BitVec 8}

/-- Bit `i` of a bitmap. -/
def bitOf (bits : Nat → BitVec 8) (i : Nat) : Bool := (bits (i / 8)).getLsbD (i % 8)

theorem bit_eq (a : FrameAllocator w) (i : Nat) : a.bit i = bitOf a.bits i := rfl

theorem getLsbD_one_shift (m k : Fin 8) : (1#8 <<< k.val).getLsbD m.val = decide (m = k) := by
  revert m k
  decide

theorem getLsbD_one_shift_pred (m k : Fin 8) : (1#8 <<< k.val - 1).getLsbD m.val = decide (m < k) := by
  revert m k
  decide

theorem bitOf_mask : (1#8 <<< (j % 8)).getLsbD (i % 8) = decide (i % 8 = j % 8) := by
  have h := getLsbD_one_shift ⟨i % 8, Nat.mod_lt _ (by decide)⟩ ⟨j % 8, Nat.mod_lt _ (by decide)⟩
  rw [h, decide_eq_decide, Fin.ext_iff]

theorem bitOf_setBit : bitOf (setBit bits j) i = (bitOf bits i || decide (i = j)) := by
  unfold bitOf setBit
  rcases eq_or_ne (i / 8) (j / 8) with h | h
  · rw [h, Function.update_self, BitVec.getLsbD_or, bitOf_mask]
    congr 1
    rw [decide_eq_decide]
    omega
  · rw [Function.update_of_ne h, decide_eq_false (by rintro rfl; exact h rfl), Bool.or_false]

theorem bitOf_clearBit : bitOf (clearBit bits j) i = (bitOf bits i && decide (i ≠ j)) := by
  unfold bitOf clearBit
  rcases eq_or_ne (i / 8) (j / 8) with h | h
  · rw [h, Function.update_self, BitVec.getLsbD_and, BitVec.getLsbD_not, decide_eq_true (Nat.mod_lt i (by decide)), Bool.true_and,
      bitOf_mask, ← decide_not]
    congr 1
    rw [decide_eq_decide]
    omega
  · rw [Function.update_of_ne h, decide_eq_true (by rintro rfl; exact h rfl), Bool.and_true]

theorem bitOf_setBits (l : List Nat) : bitOf (l.foldl setBit bits) i = (bitOf bits i || decide (i ∈ l)) := by
  induction l generalizing bits with
  | nil => rw [List.foldl_nil, decide_eq_false List.not_mem_nil, Bool.or_false]
  | cons b l ih =>
    rw [List.foldl_cons, ih, bitOf_setBit, Bool.or_assoc, ← Bool.decide_or]
    congr 1
    rw [decide_eq_decide, List.mem_cons]

theorem bitOf_initBits {frames reserved : Nat} (hi : i < frames) :
    bitOf (initBits bits ((frames + 7) / 8) reserved) i = decide (i < reserved) := by
  have hbyte : i / 8 < (frames + 7) / 8 := by omega
  have hfill : fill (fill bits ((frames + 7) / 8) 0) (reserved / 8) 0xff (i / 8) = if i / 8 < reserved / 8 then 0xff else 0 := by
    unfold fill
    rw [if_pos hbyte]
  have hones : ∀ m : Fin 8, (0xff : BitVec 8).getLsbD m.val = true := by decide
  have hone := hones ⟨i % 8, Nat.mod_lt _ (by decide)⟩
  unfold bitOf initBits
  dsimp only at hone ⊢
  split_ifs with hr
  · rcases eq_or_ne (i / 8) (reserved / 8) with h | h
    · have hm := getLsbD_one_shift_pred ⟨i % 8, Nat.mod_lt _ (by decide)⟩ ⟨reserved % 8, Nat.mod_lt _ (by decide)⟩
      rw [h, Function.update_self, hm, decide_eq_decide, Fin.lt_def]
      dsimp only
      omega
    · rw [Function.update_of_ne h, hfill]
      split_ifs with hlt
      · rw [hone, decide_eq_true (by omega)]
      · rw [decide_eq_false (by omega)]
        exact BitVec.getLsbD_zero
  · rw [hfill]
    split_ifs with hlt
    · rw [hone, decide_eq_true (by omega)]
    · rw [decide_eq_false (by omega)]
      exact BitVec.getLsbD_zero

end Bits

def unallocated (a : FrameAllocator w) : Finset Nat := (Finset.range a.frames).filter fun i => a.bit i = false

theorem mem_unallocated : i ∈ a.unallocated ↔ i < a.frames ∧ a.bit i = false := by
  unfold unallocated
  rw [Finset.mem_filter, Finset.mem_range]

theorem mem_unallocated_iff : i ∈ a.unallocated ↔ a.taken i = false := mem_unallocated.trans taken_eq_false.symm

/-- The range lies in the address space, the bitmap's frames are marked, and the count and the hint are right. -/
structure Inv (a : FrameAllocator w) : Prop where
  base : 0 < a.base
  granule : a.granule.isPowerOfTwo
  fits : a.base + a.frames * a.granule ≤ 2 ^ w
  reserved : a.reserved < a.frames
  bitmap : ∀ i < a.reserved, a.bit i = true
  free : a.free = a.unallocated.card
  hint : a.reserved ≤ a.hint ∧ a.hint ≤ a.frames

/-- Calls that change nothing but marks, count and hint. -/
structure Same (a a' : FrameAllocator w) : Prop where
  base : a'.base = a.base
  granule : a'.granule = a.granule
  frames : a'.frames = a.frames
  reserved : a'.reserved = a.reserved

theorem Same.trans {b : FrameAllocator w} (h : Same a a') (h' : Same a' b) : Same a b :=
  ⟨h'.base.trans h.base, h'.granule.trans h.granule, h'.frames.trans h.frames, h'.reserved.trans h.reserved⟩

theorem Same.address (h : Same a a') (i : Nat) : a'.address i = a.address i := by
  unfold FrameAllocator.address
  rw [h.base, h.granule]

theorem Inv.granule_pos (h : Inv a) : 0 < a.granule := Nat.pos_of_isPowerOfTwo h.granule

theorem Inv.toNat_address (h : Inv a) (hi : i < a.frames) : (a.address i).toNat = a.base + i * a.granule := by
  have h1 : (i + 1) * a.granule ≤ a.frames * a.granule := Nat.mul_le_mul_right _ hi
  have h2 := h.fits
  have h3 := h.granule_pos
  rw [Nat.add_mul, Nat.one_mul] at h1
  exact (BitVec.toNat_ofNat ..).trans (Nat.mod_eq_of_lt (by omega))

theorem Inv.address_ne_zero (h : Inv a) (hi : i < a.frames) : a.address i ≠ 0 := by
  intro he
  have h1 := h.toNat_address hi
  have h2 := h.base
  rw [he] at h1
  change 0 = _ at h1
  omega

theorem Inv.address_inj (h : Inv a) (hi : i < a.frames) (hj : j < a.frames) (he : a.address i = a.address j) : i = j := by
  have h1 := h.toNat_address hi
  rw [he, h.toNat_address hj] at h1
  exact (Nat.eq_of_mul_eq_mul_right h.granule_pos (Nat.add_left_cancel h1)).symm

theorem Inv.indexOf_iff (h : Inv a) : a.indexOf x = some i ↔ i < a.frames ∧ x = a.address i := by
  have hg := h.granule_pos
  obtain ⟨k, hk⟩ := h.granule
  unfold indexOf
  dsimp only
  rw [hk, Nat.and_two_pow_sub_one_eq_mod, ← hk]
  constructor
  · intro hx
    split_ifs at hx with h1 h2 h3
    cases hx
    have hlt := Nat.not_le.1 h3
    refine ⟨hlt, BitVec.eq_of_toNat_eq ?_⟩
    obtain ⟨-, hle⟩ := not_or.1 h1
    rw [h.toNat_address hlt, Nat.div_mul_cancel (Nat.dvd_of_mod_eq_zero (not_not.1 h2))]
    omega
  · rintro ⟨hi, rfl⟩
    have ha := h.toNat_address hi
    have hoff : (a.address i).toNat - a.base = i * a.granule := by omega
    rw [if_neg (by omega : ¬ (a.granule = 0 ∨ (a.address i).toNat < a.base)), hoff, if_neg (not_not.2 (Nat.mul_mod_left ..)),
      Nat.mul_div_cancel _ hg, if_neg (Nat.not_le.2 hi)]

theorem Inv.mark (h : Inv a) (hs : Same a a') {S : Finset Nat} (hS : S ⊆ a.unallocated)
    (hbit : ∀ i, a'.bit i = (a.bit i || decide (i ∈ S))) (hf : a'.free = a.free - S.card)
    (hh : a'.reserved ≤ a'.hint ∧ a'.hint ≤ a'.frames) : Inv a' := by
  have hu : a'.unallocated = a.unallocated \ S := by
    ext i
    rw [Finset.mem_sdiff, mem_unallocated, mem_unallocated, hs.frames, hbit, Bool.or_eq_false_iff,
      decide_eq_false_iff_not, and_assoc]
  refine ⟨hs.base ▸ h.base, hs.granule ▸ h.granule, ?_, ?_, fun i hi => ?_, ?_, hh⟩
  · rw [hs.base, hs.frames, hs.granule]
    exact h.fits
  · rw [hs.reserved, hs.frames]
    exact h.reserved
  · rw [hbit, h.bitmap i (hs.reserved ▸ hi), Bool.true_or]
  · rw [hf, hu, Finset.card_sdiff_of_subset hS, h.free]

end KickOS.Frame.FrameAllocator
