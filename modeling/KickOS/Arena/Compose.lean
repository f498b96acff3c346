import KickOS.Arena.Region

/-! The composer's region rule, over unbounded integers, answers what the build's does wherever its figure is a word. -/

namespace KickOS.Arena

open Lib.Extent

variable {w : Nat}

inductive WindowRule
  | none
  | granule
  | pow2
  deriving DecidableEq

structure Manifest where
  windowRule : WindowRule
  smallestWindow : Nat
  stackStride : Option Nat

def noUnitGranule : Nat := 16

/-- `seam_manifest`. -/
def seamManifest (c : Seams w) : Manifest where
  windowRule := if c.min = 0 then .none else if c.pow2 = true then .pow2 else .granule
  smallestWindow := c.min.toNat
  stackStride := if c.stride = 0 then none else some c.stride.toNat

/-- The manifest a build exports, which states the granule of a build without a unit. -/
def exportManifest (c : Seams w) : Manifest :=
  if c.min = 0 then { seamManifest c with windowRule := .granule, smallestWindow := noUnitGranule } else seamManifest c

/-- The loop of `pow2_ceil`, which reaches `want` after less than `want` doublings. -/
def pow2CeilFrom (want : Nat) : Nat → Nat → Nat
  | 0, power => power
  | n + 1, power => if power < want then pow2CeilFrom want n (power * 2) else power

def pow2Ceil (want : Nat) : Nat := pow2CeilFrom want want 1

def ramSize (m : Manifest) (want : Nat) : Nat :=
  match m.windowRule with
  | .none => ceilTo want noUnitGranule
  | .granule => ceilTo (max want m.smallestWindow) m.smallestWindow
  | .pow2 => pow2Ceil (max want m.smallestWindow)

/-- The rule's own alignment, before the stride. -/
def geometry (m : Manifest) (want : Nat) : Nat :=
  match m.windowRule with
  | .none => noUnitGranule
  | .granule => m.smallestWindow
  | .pow2 => ramSize m want

def ramAlign (m : Manifest) (want : Nat) : Nat :=
  match m.stackStride with
  | none => geometry m want
  | some stride => if ramSize m want = stride ∧ geometry m want < stride then stride else geometry m want

/-- What the manifest is checked for: the smallest window and the stride are powers of two. -/
structure Seams.Sound (c : Seams w) : Prop where
  min : c.min ≠ 0 → c.min.toNat.isPowerOfTwo
  stride : c.stride ≠ 0 → c.stride.toNat.isPowerOfTwo

section Loops

theorem pow2CeilFrom_eq {want n k : Nat} (hk : k ≤ Nat.clog 2 want) (hn : Nat.clog 2 want ≤ k + n) :
    pow2CeilFrom want n (2 ^ k) = 2 ^ Nat.clog 2 want := by
  induction n generalizing k with
  | zero =>
    rw [pow2CeilFrom, Nat.le_antisymm hk hn]
  | succ n ih =>
    rw [pow2CeilFrom]
    split_ifs with h
    · have hlt := (Nat.lt_clog_iff_pow_lt Nat.one_lt_two).2 h
      rw [← Nat.pow_succ]
      exact ih hlt (by omega)
    · rw [Nat.le_antisymm hk ((Nat.clog_le_iff_le_pow Nat.one_lt_two).2 (Nat.not_lt.1 h))]

theorem pow2Ceil_eq (want : Nat) : pow2Ceil want = 2 ^ Nat.clog 2 want := by
  refine pow2CeilFrom_eq (k := 0) (Nat.zero_le _) ?_
  rw [Nat.zero_add, Nat.clog_le_iff_le_pow Nat.one_lt_two]
  exact Nat.lt_two_pow_self.le

theorem doubled_toNat {want p : BitVec w} {n k : Nat} (hp : p.toNat = 2 ^ k) (hk : k ≤ Nat.clog 2 want.toNat)
    (hn : Nat.clog 2 want.toNat < k + n) (hw : Nat.clog 2 want.toNat < w) :
    (doubled want n p).toNat = 2 ^ Nat.clog 2 want.toNat := by
  induction n generalizing p k with
  | zero => omega
  | succ n ih =>
    rw [doubled]
    split_ifs with h1 h2
    · -- a power below the answer does not wrap when it is doubled
      have hlt : k < Nat.clog 2 want.toNat := (Nat.lt_clog_iff_pow_lt Nat.one_lt_two).2 (hp ▸ BitVec.lt_def.1 h1)
      have hpow : 2 ^ (k + 1) < 2 ^ w := (Nat.pow_lt_pow_iff_right Nat.one_lt_two).2 (by omega)
      have hd : (p <<< 1).toNat = 2 ^ (k + 1) := by
        rw [BitVec.toNat_shiftLeft, hp, Nat.shiftLeft_eq, ← Nat.pow_add, Nat.mod_eq_of_lt hpow]
      rw [BitVec.lt_def, hd, hp] at h2
      exact absurd h2 (Nat.not_lt.2 (Nat.pow_le_pow_right Nat.two_pos (Nat.le_succ k)))
    · have hlt : k < Nat.clog 2 want.toNat := (Nat.lt_clog_iff_pow_lt Nat.one_lt_two).2 (hp ▸ BitVec.lt_def.1 h1)
      have hpow : 2 ^ (k + 1) < 2 ^ w := (Nat.pow_lt_pow_iff_right Nat.one_lt_two).2 (by omega)
      refine ih (k := k + 1) ?_ hlt (by omega)
      rw [BitVec.toNat_shiftLeft, hp, Nat.shiftLeft_eq, ← Nat.pow_add, Nat.mod_eq_of_lt hpow]
    · have hle : Nat.clog 2 want.toNat ≤ k :=
        (Nat.clog_le_iff_le_pow Nat.one_lt_two).2 (hp ▸ Nat.not_lt.1 (mt BitVec.lt_def.2 h1))
      rw [hp, Nat.le_antisymm hk hle]

end Loops

section Agree

variable {c : Seams w} {want : BitVec w}

theorem toNat_raised (c : Seams w) (want : BitVec w) : (if want < c.min then c.min else want).toNat =
    max want.toNat c.min.toNat := by
  split_ifs with h
  · rw [max_eq_right (BitVec.lt_def.1 h).le]
  · rw [max_eq_left (Nat.not_lt.1 (mt BitVec.lt_def.2 h))]

theorem Seams.Sound.regionSize_toNat (h : c.Sound) (hw : 32 ≤ w) (hf : ramSize (seamManifest c) want.toNat < 2 ^ w) :
    (regionSize c want).toNat = ramSize (seamManifest c) want.toNat := by
  unfold ramSize seamManifest at hf ⊢
  unfold regionSize
  rcases eq_or_ne c.min 0 with hz | hnz
  · rw [if_pos hz] at hf ⊢
    rw [if_pos hz]
    dsimp only at hf ⊢
    -- the mask of the rounding to 16 bytes
    have h16 : (BitVec.ofNat w 16).toNat = 16 := toNat_lit hw (by decide)
    have h15 : (15 : BitVec w) = BitVec.ofNat w 16 - 1 := by
      refine BitVec.eq_of_toNat_eq ?_
      rw [toNat_pred (by rw [h16]; decide), h16]
      exact toNat_lit hw (by decide)
    have hp : (BitVec.ofNat w 16).toNat.isPowerOfTwo := h16.symm ▸ ⟨4, rfl⟩
    rw [h15]
    rcases roundUp_toNat (b := want) hp with ⟨he, -⟩ | ⟨-, hge⟩
    · rw [he, h16]
      rfl
    · rw [h16] at hge
      exact absurd hf (Nat.not_lt.2 hge)
  · rw [if_neg hnz] at hf ⊢
    rw [if_neg hnz]
    dsimp only at hf ⊢
    have hmax := toNat_raised c want
    cases hp2 : c.pow2 with
    | false =>
      rw [hp2, if_neg Bool.false_ne_true] at hf
      rw [if_pos rfl, if_neg Bool.false_ne_true]
      dsimp only at hf ⊢
      rw [← hmax] at hf ⊢
      rcases roundUp_toNat (b := if want < c.min then c.min else want) (h.min hnz) with ⟨he, -⟩ | ⟨-, hge⟩
      · have hle : ¬ ((if want < c.min then c.min else want) + (c.min - 1)) &&& ~~~(c.min - 1) <
            (if want < c.min then c.min else want) := by
          rw [BitVec.lt_def, he]
          exact Nat.not_lt.2 (le_ceilTo (Nat.pos_of_isPowerOfTwo (h.min hnz)))
        rw [if_neg hle, he]
      · exact absurd hf (Nat.not_lt.2 hge)
    | true =>
      rw [hp2, if_pos rfl] at hf
      rw [if_neg Bool.true_eq_false_eq_False, if_pos rfl]
      dsimp only at hf ⊢
      rw [← hmax, pow2Ceil_eq] at hf ⊢
      have hlt := (Nat.pow_lt_pow_iff_right Nat.one_lt_two).1 hf
      exact doubled_toNat (k := 0) (toNat_lit hw (by decide)) (Nat.zero_le _) (by omega) hlt

theorem Seams.Sound.geometry_toNat (h : c.Sound) (hw : 32 ≤ w) (hf : ramSize (seamManifest c) want.toNat < 2 ^ w) :
    (if c.min ≠ 0 then (if c.pow2 = true then regionSize c want else c.min) else 16).toNat =
      geometry (seamManifest c) want.toNat ∧
    (geometry (seamManifest c) want.toNat).isPowerOfTwo := by
  have hs := h.regionSize_toNat hw hf
  rcases eq_or_ne c.min 0 with hz | hnz
  · have hr : (seamManifest c).windowRule = .none := if_pos hz
    unfold geometry
    rw [if_neg (not_not.2 hz), hr]
    exact ⟨toNat_lit hw (by decide), 4, rfl⟩
  · rw [if_pos hnz]
    unfold geometry
    cases hp : c.pow2 with
    | false =>
      have hr : (seamManifest c).windowRule = .granule := by
        change (if c.min = 0 then WindowRule.none else if c.pow2 = true then .pow2 else .granule) = .granule
        rw [if_neg hnz, hp, if_neg Bool.false_ne_true]
      rw [if_neg Bool.false_ne_true, hr]
      exact ⟨rfl, h.min hnz⟩
    | true =>
      have hr : (seamManifest c).windowRule = .pow2 := by
        change (if c.min = 0 then WindowRule.none else if c.pow2 = true then .pow2 else .granule) = .pow2
        rw [if_neg hnz, hp, if_pos rfl]
      rw [if_pos rfl, hr]
      refine ⟨hs, ?_⟩
      dsimp only
      unfold ramSize
      rw [hr]
      dsimp only
      rw [pow2Ceil_eq]
      exact ⟨_, rfl⟩

theorem Seams.Sound.regionAlign_toNat (h : c.Sound) (hw : 32 ≤ w) (hf : ramSize (seamManifest c) want.toNat < 2 ^ w) :
    (regionAlign c want).toNat = ramAlign (seamManifest c) want.toNat ∧ (ramAlign (seamManifest c) want.toNat).isPowerOfTwo := by
  have hs := h.regionSize_toNat hw hf
  obtain ⟨hg, hp⟩ := h.geometry_toNat hw hf
  have hiff : (c.stride ≠ 0 ∧ regionSize c want = c.stride ∧
      (if c.min ≠ 0 then (if c.pow2 = true then regionSize c want else c.min) else 16) < c.stride) ↔
      c.stride ≠ 0 ∧ ramSize (seamManifest c) want.toNat = c.stride.toNat ∧
        geometry (seamManifest c) want.toNat < c.stride.toNat := by
    rw [← hs, ← hg, ← BitVec.lt_def, BitVec.toNat_inj]
  unfold regionAlign ramAlign
  dsimp only
  rcases eq_or_ne c.stride 0 with hz | hnz
  · have hn : (seamManifest c).stackStride = none := if_pos hz
    rw [hn, if_neg fun hc => hc.1 hz]
    exact ⟨hg, hp⟩
  · have hn : (seamManifest c).stackStride = some c.stride.toNat := if_neg hnz
    rw [hn, if_congr hiff rfl rfl]
    dsimp only
    rw [if_congr (and_iff_right hnz) rfl rfl]
    rcases em (ramSize (seamManifest c) want.toNat = c.stride.toNat ∧
      geometry (seamManifest c) want.toNat < c.stride.toNat) with hc | hc
    · rw [if_pos hc, if_pos hc]
      exact ⟨rfl, h.stride hnz⟩
    · rw [if_neg hc, if_neg hc]
      exact ⟨hg, hp⟩

theorem Seams.Sound.le_ramSize (h : c.Sound) : want.toNat ≤ ramSize (seamManifest c) want.toNat := by
  unfold ramSize
  cases hr : (seamManifest c).windowRule with
  | none => exact le_ceilTo (by decide)
  | granule =>
    have hnz : c.min ≠ 0 := by
      intro hz
      rw [show (seamManifest c).windowRule = .none from if_pos hz] at hr
      cases hr
    exact (le_max_left ..).trans (le_ceilTo (Nat.pos_of_isPowerOfTwo (h.min hnz)))
  | pow2 =>
    dsimp only
    rw [pow2Ceil_eq]
    exact (le_max_left ..).trans (Nat.le_pow_clog Nat.one_lt_two _)

theorem ramSize_export {n : Nat} (hn : 0 < n) : ramSize (exportManifest c) n = ramSize (seamManifest c) n := by
  unfold exportManifest
  split_ifs with hz
  · have hr : (seamManifest c).windowRule = .none := if_pos hz
    unfold ramSize
    rw [hr]
    dsimp only
    unfold ceilTo noUnitGranule
    omega
  · rfl

theorem ramAlign_export {n : Nat} (hn : 0 < n) : ramAlign (exportManifest c) n = ramAlign (seamManifest c) n := by
  have hs := ramSize_export (c := c) hn
  unfold exportManifest at hs ⊢
  split_ifs at hs ⊢ with hz
  · have hr : (seamManifest c).windowRule = .none := if_pos hz
    have hg : geometry { seamManifest c with windowRule := .granule, smallestWindow := noUnitGranule } n =
        geometry (seamManifest c) n := by
      unfold geometry
      rw [hr]
    unfold ramAlign
    rw [hs, hg]
  · rfl

end Agree

end KickOS.Arena
