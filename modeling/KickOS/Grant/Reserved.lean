import KickOS.Arena.Region

/-! The admission of device and memory grants: no window reaches a block the kernel keeps. -/

namespace KickOS.Grant

open Arena (Seams regionAdmissible)

variable {w : Nat}

/-- `arch_reserved_block`, also an aperture or a region. -/
structure Block (w : Nat) where
  base : BitVec w
  size : BitVec w

/-- What the chip, the build and its images state. -/
structure Chip (w : Nat) where
  reserved : List (Block w)
  apertures : List (Block w)
  bitband : Bool
  seams : Seams w
  ramBase : BitVec w
  ramSize : BitVec w
  /-- The partition's user share, which a build has where its size is not 0. -/
  share : Option { s : Block w // s.size ≠ 0 }
  /-- The static regions of every image. -/
  statics : List (Block w)
  /-- Whether the unit can encode `ARCH_MPU_NOCACHE`. -/
  nocache : Bool
  /-- `arch_mpu_region_encodable`. -/
  encodable : BitVec w → BitVec w → Bool

def bbPeriBase : BitVec w := 0x40000000
def bbPeriLast : BitVec w := 0x400fffff
def bbPeriAliasBase : BitVec w := 0x42000000
def bbPeriAliasLast : BitVec w := 0x43ffffff
def bbSramAliasBase : BitVec w := 0x22000000
def bbSramAliasLast : BitVec w := 0x23ffffff

def archMpuDev : BitVec 32 := 1 <<< 3
def archMpuNocache : BitVec 32 := 1 <<< 4

def Block.last (b : Block w) : BitVec w := b.base + b.size - 1

def grantRangesOverlap (aBase aLast bBase bLast : BitVec w) : Bool := decide (aBase ≤ bLast) && decide (bBase ≤ aLast)

/-- One reserved block against a window, and its alias image where the block lies in the aliased megabyte. -/
def Block.hit (bitband : Bool) (base last : BitVec w) (b : Block w) : Bool :=
  grantRangesOverlap base last b.base b.last ||
    (bitband && decide (bbPeriBase ≤ b.base) && decide (b.last ≤ bbPeriLast) &&
      grantRangesOverlap base last (bbPeriAliasBase + (b.base - bbPeriBase) * 32)
        (bbPeriAliasBase + (b.base - bbPeriBase) * 32 + b.size * 32 - 1))

namespace Chip

variable (c : Chip w)

def grantHitsReserved (base size : BitVec w) : Bool :=
  if size = 0 then false
  else if base + size - 1 < base then true
  else c.reserved.any (Block.hit c.bitband base (base + size - 1))

def grantWindowInAperture (base size : BitVec w) : Bool :=
  if size = 0 ∨ base + size - 1 < base then false
  else c.apertures.any fun a => decide (a.base ≤ base) && decide (base + size - 1 ≤ a.last)

def grantNocacheAdmissible (attr : BitVec 32) : Bool := if attr &&& archMpuNocache = 0 then true else c.nocache

def ampShareHolds (base size : BitVec w) : Bool :=
  match c.share with
  | none => false
  | some s =>
    decide (size ≠ 0) && decide (base ≤ base + size - 1) && decide (s.1.base ≤ base) &&
      decide (base + size - 1 ≤ s.1.base + (s.1.size - 1))

def grantRegionAdmissible (base size : BitVec w) (attr : BitVec 32) (callerAuthorized : Bool) : Bool :=
  if size = 0 then false
  else if c.grantHitsReserved base size then false
  else if c.grantNocacheAdmissible attr = false then false
  else if attr &&& archMpuDev ≠ 0 then
    if callerAuthorized = false then false
    else if c.encodable base size = false ∨ c.grantWindowInAperture base size = false then false
    else if c.bitband = true ∧
        (grantRangesOverlap base (base + size - 1) bbPeriAliasBase bbPeriAliasLast = true ∨
          grantRangesOverlap base (base + size - 1) bbSramAliasBase bbSramAliasLast = true) then false
    else true
  else if regionAdmissible c.seams base size = false then false
  else if c.ramSize = 0 then false
  else if c.ampShareHolds base size then true
  else decide (c.ramBase ≤ base) && decide (base + size - 1 ≤ c.ramBase + c.ramSize - 1)

/-- `grant_reserved_validate`: every assertion of the boot's check holds. -/
def grantReservedValidate : Bool :=
  decide (c.seams.min = 0 ∨ c.seams.min &&& (c.seams.min - 1) = 0) &&
  c.reserved.all (fun b => decide (b.size ≠ 0) && decide (b.base ≤ b.last)) &&
  (decide (c.ramSize = 0) || !c.grantHitsReserved c.ramBase c.ramSize) &&
  c.apertures.all (fun a => decide (a.size ≠ 0) && decide (a.base ≤ a.last) &&
    (decide (c.ramSize = 0) || !grantRangesOverlap a.base a.last c.ramBase (c.ramBase + c.ramSize - 1))) &&
  c.statics.all (fun r => !c.grantHitsReserved r.base r.size &&
    c.apertures.all fun a => decide (r.size = 0) || !grantRangesOverlap a.base a.last r.base r.last)

end Chip

/-! ### What an admitted window contains

No byte of a reserved block, and no alias byte of one that lies in the aliased megabyte. The alias image of a block that
only crosses an edge of the megabyte is not looked at: the device arm refuses every alias, the memory arm does not. -/

open Lib.Extent

variable {c : Chip w} {base size : BitVec w} {attr : BitVec 32} {auth : Bool}

def bytes (base size : BitVec w) : Set Nat := Set.Ico base.toNat (base.toNat + size.toNat)

def Block.bytes (b : Block w) : Set Nat := Grant.bytes b.base b.size

/-- The peripheral addresses that have aliases. -/
def megabyte : Set Nat := Set.Ico 0x40000000 0x40100000

/-- The alias bytes through which the bits of the byte at `y` are written, a word for each. -/
def aliasBytes (y : Nat) : Set Nat := Set.Ico (0x42000000 + (y - 0x40000000) * 32) (0x42000000 + (y - 0x40000000) * 32 + 32)

/-- What a grant may reach. -/
structure Confined (c : Chip w) (base size : BitVec w) (attr : BitVec 32) (auth : Bool) : Prop where
  fits : base.toNat + size.toNat ≤ 2 ^ w
  reserved : ∀ b ∈ c.reserved, Disjoint (bytes base size) b.bytes
  aliases : c.bitband = true → ∀ b ∈ c.reserved, ∀ y ∈ b.bytes, y ∈ megabyte → Disjoint (bytes base size) (aliasBytes y)
  device : attr &&& archMpuDev ≠ 0 → auth = true ∧ ∃ a ∈ c.apertures, bytes base size ⊆ a.bytes
  memory : attr &&& archMpuDev = 0 →
    bytes base size ⊆ bytes c.ramBase c.ramSize ∨ ∃ s, c.share = some s ∧ bytes base size ⊆ s.1.bytes

/-- A block as the boot's check wants it. -/
structure Block.Sound (b : Block w) : Prop where
  size : 0 < b.size.toNat
  fits : b.base.toNat + b.size.toNat ≤ 2 ^ w

theorem Block.sound_iff {b : Block w} : (decide (b.size ≠ 0) && decide (b.base ≤ b.last)) = true ↔ b.Sound := by
  rw [Bool.and_eq_true, decide_eq_true_iff, decide_eq_true_iff]
  constructor
  · rintro ⟨h1, h2⟩
    refine ⟨toNat_pos h1, Nat.not_lt.1 fun hlt => ?_⟩
    exact absurd ((last_lt_iff (toNat_pos h1)).2 hlt) (BitVec.not_lt.2 h2)
  · rintro ⟨h1, h2⟩
    refine ⟨fun hz => by rw [hz] at h1; exact absurd h1 (lt_irrefl 0), BitVec.not_lt.1 fun hlt => ?_⟩
    exact absurd ((last_lt_iff h1).1 hlt) (Nat.not_lt.2 h2)

theorem Block.Sound.toNat_last {b : Block w} (h : b.Sound) : b.last.toNat = b.base.toNat + b.size.toNat - 1 :=
  Lib.Extent.toNat_last h.size h.fits

theorem overlap_iff {aBase aLast bBase bLast : BitVec w} {m n : Nat} (ha : aLast.toNat = aBase.toNat + m - 1) (hm : 0 < m)
    (hb : bLast.toNat = bBase.toNat + n - 1) (hn : 0 < n) : grantRangesOverlap aBase aLast bBase bLast = false ↔
    Disjoint (Set.Ico aBase.toNat (aBase.toNat + m)) (Set.Ico bBase.toNat (bBase.toNat + n)) := by
  unfold grantRangesOverlap
  rw [Bool.and_eq_false_iff, decide_eq_false_iff_not, decide_eq_false_iff_not, BitVec.le_def, BitVec.le_def,
    Ico_disjoint_iff (by omega) (by omega)]
  omega

section Window

variable (hs : 0 < size.toNat) (hfit : base.toNat + size.toNat ≤ 2 ^ w)

include hs hfit in
theorem hit_block_iff {b : Block w} (hb : b.Sound) :
    grantRangesOverlap base (base + size - 1) b.base b.last = false ↔ Disjoint (bytes base size) b.bytes :=
  overlap_iff (toNat_last hs hfit) hs hb.toNat_last hb.size

theorem toNat_image {b : Block w} (hw : 32 ≤ w) (hb : b.Sound) (h1 : 0x40000000 ≤ b.base.toNat)
    (h2 : b.base.toNat + b.size.toNat ≤ 0x40100000) :
    (bbPeriAliasBase + (b.base - bbPeriBase) * 32).toNat = 0x42000000 + (b.base.toNat - 0x40000000) * 32 ∧
    (bbPeriAliasBase + (b.base - bbPeriBase) * 32 + b.size * 32 - 1).toNat =
      (bbPeriAliasBase + (b.base - bbPeriBase) * 32).toNat + b.size.toNat * 32 - 1 := by
  have h32 : 2 ^ 32 ≤ 2 ^ w := Nat.pow_le_pow_right Nat.two_pos hw
  have hsize := hb.size
  have hB : (bbPeriBase : BitVec w).toNat = 0x40000000 := toNat_lit hw (by decide)
  have hA : (bbPeriAliasBase : BitVec w).toNat = 0x42000000 := toNat_lit hw (by decide)
  have hk : (32 : BitVec w).toNat = 32 := toNat_lit hw (by decide)
  have hoff : (b.base - bbPeriBase).toNat = b.base.toNat - 0x40000000 := by
    rw [BitVec.toNat_sub_of_le (BitVec.le_def.2 (hB ▸ h1)), hB]
  have hmul : ((b.base - bbPeriBase) * 32).toNat = (b.base.toNat - 0x40000000) * 32 := by
    rw [BitVec.toNat_mul, hoff, hk, Nat.mod_eq_of_lt (by omega)]
  have hbase : (bbPeriAliasBase + (b.base - bbPeriBase) * 32).toNat = 0x42000000 + (b.base.toNat - 0x40000000) * 32 := by
    rw [BitVec.toNat_add, hA, hmul, Nat.mod_eq_of_lt (by omega)]
  have hspan : (b.size * 32).toNat = b.size.toNat * 32 := by
    rw [BitVec.toNat_mul, hk, Nat.mod_eq_of_lt (by omega)]
  refine ⟨hbase, ?_⟩
  rw [toNat_last (by omega) (by omega), hspan]

theorem image_disjoint_iff {b : Block w} {W : Set Nat} (h1 : 0x40000000 ≤ b.base.toNat) :
    Disjoint W (Set.Ico (0x42000000 + (b.base.toNat - 0x40000000) * 32)
      (0x42000000 + (b.base.toNat - 0x40000000) * 32 + b.size.toNat * 32)) ↔ ∀ y ∈ b.bytes, Disjoint W (aliasBytes y) :=
  scaled_disjoint_iff h1

theorem wholly_iff {b : Block w} (hw : 32 ≤ w) (hb : b.Sound) :
    (bbPeriBase ≤ b.base ∧ b.last ≤ bbPeriLast) ↔ b.bytes ⊆ megabyte := by
  have hB : (bbPeriBase : BitVec w).toNat = 0x40000000 := toNat_lit hw (by decide)
  have hL : (bbPeriLast : BitVec w).toNat = 0x400fffff := toNat_lit hw (by decide)
  have hsize := hb.size
  rw [BitVec.le_def, BitVec.le_def, hB, hL, hb.toNat_last]
  unfold Block.bytes Grant.bytes megabyte
  rw [Set.Ico_subset_Ico_iff (by omega)]
  omega

include hs hfit in
/-- One block is missed exactly where the window meets neither the block nor, for a block wholly in the megabyte, its aliases. -/
theorem hit_iff {b : Block w} (hw : 32 ≤ w) (hb : b.Sound) {bitband : Bool} :
    b.hit bitband base (base + size - 1) = false ↔ Disjoint (bytes base size) b.bytes ∧
      (bitband = true → b.bytes ⊆ megabyte → ∀ y ∈ b.bytes, Disjoint (bytes base size) (aliasBytes y)) := by
  unfold Block.hit
  rw [Bool.or_eq_false_iff, hit_block_iff hs hfit hb]
  refine and_congr_right fun _ => ?_
  cases bitband with
  | false => simp
  | true =>
    rw [Bool.true_and, ← Bool.decide_and, Bool.and_eq_false_iff, decide_eq_false_iff_not, wholly_iff hw hb]
    rcases em (b.bytes ⊆ megabyte) with hin | hin
    · have hends := hin
      unfold Block.bytes Grant.bytes megabyte at hends
      rw [Set.Ico_subset_Ico_iff (Nat.lt_add_of_pos_right hb.size)] at hends
      obtain ⟨hi1, hi2⟩ := toNat_image hw hb hends.1 hends.2
      have hpos : 0 < b.size.toNat * 32 := Nat.mul_pos hb.size (by decide)
      rw [overlap_iff (toNat_last hs hfit) hs hi2 hpos, hi1, image_disjoint_iff hends.1]
      exact ⟨fun h _ _ => h.resolve_left (not_not.2 hin), fun h => .inr (h rfl hin)⟩
    · exact ⟨fun _ _ h => absurd h hin, fun _ => .inl hin⟩

end Window

/-- What the boot's check leaves of the chip's lists. -/
structure Chip.Valid (c : Chip w) : Prop where
  reserved : ∀ b ∈ c.reserved, b.Sound
  apertures : ∀ a ∈ c.apertures, a.Sound
  ram : c.ramSize ≠ 0 → c.ramBase.toNat + c.ramSize.toNat ≤ 2 ^ w

theorem Chip.not_hits (hs : size ≠ 0) (hn : c.grantHitsReserved base size = false) :
    base.toNat + size.toNat ≤ 2 ^ w ∧ ∀ b ∈ c.reserved, b.hit c.bitband base (base + size - 1) = false := by
  unfold grantHitsReserved at hn
  rw [if_neg hs] at hn
  split_ifs at hn with h1
  refine ⟨Nat.not_lt.1 fun hlt => h1 ((last_lt_iff (toNat_pos hs)).2 hlt), fun b hb => ?_⟩
  exact Bool.eq_false_iff.2 (List.any_eq_false.1 hn b hb)

theorem Chip.valid (hv : c.grantReservedValidate = true) : c.Valid := by
  unfold grantReservedValidate at hv
  rw [Bool.and_eq_true, Bool.and_eq_true, Bool.and_eq_true, Bool.and_eq_true] at hv
  obtain ⟨⟨⟨⟨-, h1⟩, h2⟩, h3⟩, -⟩ := hv
  refine ⟨fun b hb => Block.sound_iff.1 (List.all_eq_true.1 h1 b hb), fun a ha => ?_, fun hr => ?_⟩
  · have h4 := List.all_eq_true.1 h3 a ha
    rw [Bool.and_eq_true] at h4
    exact Block.sound_iff.1 h4.1
  · rw [Bool.or_eq_true, decide_eq_true_iff, Bool.not_eq_true'] at h2
    exact (not_hits hr (h2.resolve_left hr)).1

theorem Chip.admitted (ha : c.grantRegionAdmissible base size attr auth = true) :
    size ≠ 0 ∧ c.grantHitsReserved base size = false ∧
    (attr &&& archMpuDev ≠ 0 ∧ auth = true ∧ c.grantWindowInAperture base size = true ∧
        (c.bitband = true → grantRangesOverlap base (base + size - 1) bbPeriAliasBase bbPeriAliasLast = false) ∨
      attr &&& archMpuDev = 0 ∧ c.ramSize ≠ 0 ∧
        (c.ampShareHolds base size = true ∨ c.ramBase ≤ base ∧ base + size - 1 ≤ c.ramBase + c.ramSize - 1)) := by
  unfold grantRegionAdmissible at ha
  split_ifs at ha with h1 h2 h3 h4 h5 h6 h7 h8 h9 h10
  · refine ⟨h1, Bool.eq_false_iff.2 h2, .inl ⟨h4, Bool.not_eq_false _ ▸ h5, ?_, fun hb => ?_⟩⟩
    · rw [not_or] at h6
      exact Bool.not_eq_false _ ▸ h6.2
    · by_contra ho
      exact h7 ⟨hb, .inl (Bool.not_eq_false _ ▸ ho)⟩
  · exact ⟨h1, Bool.eq_false_iff.2 h2, .inr ⟨not_not.1 h4, h9, .inl h10⟩⟩
  · rw [Bool.and_eq_true, decide_eq_true_iff, decide_eq_true_iff] at ha
    exact ⟨h1, Bool.eq_false_iff.2 h2, .inr ⟨not_not.1 h4, h9, .inr ha⟩⟩

section Places

variable (hs : 0 < size.toNat) (hfit : base.toNat + size.toNat ≤ 2 ^ w)

include hs hfit in
theorem subset_of_ends {b : Block w} (hb : b.Sound) (h1 : b.base ≤ base) (h2 : base + size - 1 ≤ b.last) :
    bytes base size ⊆ b.bytes := by
  rw [BitVec.le_def] at h1 h2
  rw [toNat_last hs hfit, hb.toNat_last] at h2
  have hbs := hb.size
  exact Set.Ico_subset_Ico h1 (by omega)

include hs hfit in
theorem subset_of_share (h : c.ampShareHolds base size = true) : ∃ s, c.share = some s ∧ bytes base size ⊆ s.1.bytes := by
  unfold Chip.ampShareHolds at h
  cases hc : c.share with
  | none =>
    rw [hc] at h
    cases h
  | some s =>
    rw [hc] at h
    dsimp only at h
    rw [Bool.and_eq_true, Bool.and_eq_true, Bool.and_eq_true, decide_eq_true_iff, decide_eq_true_iff, decide_eq_true_iff,
      decide_eq_true_iff] at h
    obtain ⟨⟨⟨-, -⟩, h1⟩, h2⟩ := h
    refine ⟨s, rfl, ?_⟩
    have hsz := toNat_pos s.2
    have hl := toNat_last hs hfit
    rw [← last_assoc] at h2
    rcases Nat.lt_or_ge (2 ^ w) (s.1.base.toNat + s.1.size.toNat) with hwrap | hfit'
    · -- a share that wraps ends below its own base and holds no window
      have h3 := BitVec.lt_def.1 ((last_lt_iff hsz).2 hwrap)
      rw [BitVec.le_def] at h1 h2
      omega
    · exact subset_of_ends hs hfit ⟨hsz, hfit'⟩ h1 h2

include hs hfit in
theorem alias_disjoint (hw : 32 ≤ w) (ho : grantRangesOverlap base (base + size - 1) bbPeriAliasBase bbPeriAliasLast = false)
    {y : Nat} (hy : y ∈ megabyte) : Disjoint (bytes base size) (aliasBytes y) := by
  have hA : (bbPeriAliasBase : BitVec w).toNat = 0x42000000 := toNat_lit hw (by decide)
  have hL : (bbPeriAliasLast : BitVec w).toNat = (bbPeriAliasBase : BitVec w).toNat + 0x2000000 - 1 := by
    rw [hA]
    exact toNat_lit hw (by decide)
  rw [overlap_iff (toNat_last hs hfit) hs hL (by decide), hA] at ho
  refine ho.mono_right (Set.Ico_subset_Ico (Nat.le_add_right ..) ?_)
  have hy2 := (Set.mem_Ico.1 hy).2
  omega

end Places

/-- An admitted grant is confined exactly where no block that crosses an edge of the megabyte has an alias byte, for what of it
lies inside, in the window of a memory grant. -/
theorem grant_confined_iff (hw : 32 ≤ w) (hv : c.grantReservedValidate = true)
    (ha : c.grantRegionAdmissible base size attr auth = true) : Confined c base size attr auth ↔
    (c.bitband = true → attr &&& archMpuDev = 0 → ∀ b ∈ c.reserved, ¬ b.bytes ⊆ megabyte →
      ∀ y ∈ b.bytes, y ∈ megabyte → Disjoint (bytes base size) (aliasBytes y)) := by
  have hvalid := Chip.valid hv
  obtain ⟨hne, hn, harm⟩ := Chip.admitted ha
  have hs := toNat_pos hne
  obtain ⟨hfit, hmiss⟩ := Chip.not_hits hne hn
  have hhit := fun b hb => (hit_iff hs hfit hw (hvalid.reserved b hb)).1 (hmiss b hb)
  constructor
  · intro hc hbb _ b hb _ y hy hym
    exact hc.aliases hbb b hb y hy hym
  · intro hcross
    refine ⟨hfit, fun b hb => (hhit b hb).1, fun hbb b hb y hy hym => ?_, fun hdev => ?_, fun hmem => ?_⟩
    · rcases em (b.bytes ⊆ megabyte) with hin | hin
      · exact (hhit b hb).2 hbb hin y hy
      · rcases harm with ⟨-, -, -, ho⟩ | ⟨hmem, -⟩
        · exact alias_disjoint hs hfit hw (ho hbb) hym
        · exact hcross hbb hmem b hb hin y hy hym
    · rcases harm with ⟨-, hauth, hap, -⟩ | ⟨hmem, -⟩
      · refine ⟨hauth, ?_⟩
        unfold Chip.grantWindowInAperture at hap
        split_ifs at hap
        obtain ⟨a, ham, h1⟩ := List.any_eq_true.1 hap
        rw [Bool.and_eq_true, decide_eq_true_iff, decide_eq_true_iff] at h1
        exact ⟨a, ham, subset_of_ends hs hfit (hvalid.apertures a ham) h1.1 h1.2⟩
      · exact absurd hmem hdev
    · rcases harm with ⟨hdev, -⟩ | ⟨-, hram, hsh | ⟨h1, h2⟩⟩
      · exact absurd hmem hdev
      · exact .inr (subset_of_share hs hfit hsh)
      · exact .inl (subset_of_ends hs hfit (b := ⟨c.ramBase, c.ramSize⟩) ⟨toNat_pos hram, hvalid.ram hram⟩ h1 h2)

/-- A chip with aliases, one reserved block and its arena in RAM. -/
def chipWith (reserved : Block 32) (ramBase : BitVec 32) : Chip 32 where
  reserved := [reserved]
  apertures := [⟨0x40000000, 0x100000⟩]
  bitband := true
  seams := { min := 32, pow2 := true, stride := 0 }
  ramBase := ramBase
  ramSize := 0x10000
  share := none
  statics := []
  nocache := false
  encodable := fun _ _ => true

theorem grant_confined_iff_device : Confined (chipWith ⟨0x40010000, 0x400⟩ 0x20000000) 0x40020000 0x1000
    (archMpuDev ||| 3) true :=
  (grant_confined_iff (le_refl 32) (by decide +kernel) (by decide +kernel)).2 fun _ hmem => absurd hmem (by decide)

/-- A reserved block reaches into the megabyte from below; the arena lies over the aliases of what it has there. -/
theorem crossing_block_reached :
    (chipWith ⟨0x3ffff000, 0x2000⟩ 0x42000000).grantReservedValidate = true ∧
    (chipWith ⟨0x3ffff000, 0x2000⟩ 0x42000000).grantRegionAdmissible 0x42000000 0x1000 3 false = true ∧
    ¬ Confined (chipWith ⟨0x3ffff000, 0x2000⟩ 0x42000000) 0x42000000 0x1000 3 false := by
  refine ⟨by decide +kernel, by decide +kernel, fun hc => ?_⟩
  have hd := hc.aliases rfl ⟨0x3ffff000, 0x2000⟩ (List.mem_singleton_self _) 0x40000000 (Set.mem_Ico.2 (by decide +kernel))
    (Set.mem_Ico.2 (by decide +kernel))
  have h1 : 0x42000000 ∈ bytes (0x42000000 : BitVec 32) 0x1000 := Set.mem_Ico.2 (by decide +kernel)
  have h2 : 0x42000000 ∈ aliasBytes 0x40000000 := Set.mem_Ico.2 (by decide +kernel)
  exact Set.disjoint_left.1 hd h1 h2

end KickOS.Grant
