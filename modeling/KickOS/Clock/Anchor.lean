import Mathlib.Tactic

/-! The tickless clock (`clk_q32.h`, `clk_anchor.h`): a tick count priced in Q32.32 from the last rate edge on. -/

namespace KickOS.Clock

/-- `KICKOS_NS_PER_SEC`. -/
def nsPerSec : BitVec 64 := 1000000000

/-- `arch_clk_recip_q32`. -/
def recipQ32 (hz : BitVec 64) : BitVec 64 := ((nsPerSec <<< 32) + (hz >>> 1)) / hz

/-- `arch_clk_mul_q32`. -/
def mulQ32 (ticks mult : BitVec 64) : BitVec 64 :=
  let a := ticks >>> 32
  let b := ticks &&& 0xffffffff
  let c := mult >>> 32
  let d := mult &&& 0xffffffff
  ((a * c) <<< 32) + a * d + b * c + ((b * d) >>> 32)

/-- `arch_clk_anchor`. -/
structure Anchor where
  baseNs : BitVec 64 := 0
  baseTicks : BitVec 64 := 0
  mult : BitVec 64 := 0

namespace Anchor

def init (a : Anchor) (hz : BitVec 32) : Anchor := if hz = 0 then a else ⟨0, 0, recipQ32 (hz.setWidth 64)⟩

def nsFrom (a : Anchor) (ticks : BitVec 64) : BitVec 64 := a.baseNs + mulQ32 (ticks - a.baseTicks) a.mult

def reprice (a : Anchor) (edgeTicks edgeNs : BitVec 64) (hz : BitVec 32) : Anchor :=
  if hz = 0 then a else ⟨edgeNs, edgeTicks, recipQ32 (hz.setWidth 64)⟩

end Anchor

/-! ### The product -/

theorem split_mul_div (a b c d : Nat) :
    (a * 2 ^ 32 + b) * (c * 2 ^ 32 + d) / 2 ^ 32 = a * c * 2 ^ 32 + a * d + b * c + b * d / 2 ^ 32 := by
  have h : (a * 2 ^ 32 + b) * (c * 2 ^ 32 + d) = 2 ^ 32 * (a * c * 2 ^ 32 + a * d + b * c) + b * d := by ring
  rw [h, Nat.mul_add_div (Nat.two_pow_pos 32)]

theorem toNat_lo (x : BitVec 64) : (x &&& 0xffffffff).toNat = x.toNat % 2 ^ 32 := by
  rw [BitVec.toNat_and]
  exact Nat.and_two_pow_sub_one_eq_mod _ 32

theorem toNat_mulQ32 (ticks mult : BitVec 64) : (mulQ32 ticks mult).toNat = ticks.toNat * mult.toNat / 2 ^ 32 % 2 ^ 64 := by
  obtain ⟨a, ha⟩ : ∃ a, a = ticks.toNat / 2 ^ 32 := ⟨_, rfl⟩
  obtain ⟨b, hb⟩ : ∃ b, b = ticks.toNat % 2 ^ 32 := ⟨_, rfl⟩
  obtain ⟨c, hc⟩ : ∃ c, c = mult.toNat / 2 ^ 32 := ⟨_, rfl⟩
  obtain ⟨d, hd⟩ : ∃ d, d = mult.toNat % 2 ^ 32 := ⟨_, rfl⟩
  have hticks : ticks.toNat = a * 2 ^ 32 + b := by omega
  have hmult : mult.toNat = c * 2 ^ 32 + d := by omega
  -- the low product is a word, so its shift is exact
  have hbd : b * d < 2 ^ 64 := by
    have h1 : b < 2 ^ 32 := hb ▸ Nat.mod_lt _ (Nat.two_pow_pos 32)
    have h2 : d < 2 ^ 32 := hd ▸ Nat.mod_lt _ (Nat.two_pow_pos 32)
    calc b * d < 2 ^ 32 * 2 ^ 32 := Nat.mul_lt_mul'' h1 h2
      _ = 2 ^ 64 := by norm_num
  rw [hticks, hmult, split_mul_div]
  unfold mulQ32
  simp only [BitVec.toNat_add, BitVec.toNat_mul, BitVec.toNat_shiftLeft, BitVec.toNat_ushiftRight, toNat_lo, ← ha,
    ← hb, ← hc, ← hd, Nat.shiftLeft_eq, Nat.shiftRight_eq_div_pow, Nat.mod_eq_of_lt hbd]
  simp only [Nat.mod_add_mod, Nat.add_mod_mod, Nat.mod_mul_mod]

theorem mulQ32_zero (mult : BitVec 64) : mulQ32 0#64 mult = 0#64 := by
  refine BitVec.eq_of_toNat_eq ?_
  rw [toNat_mulQ32]
  simp

/-! ### The time an anchor gives -/

/-- The time `e` ticks behind the edge, in whole nanoseconds and without wrapping. -/
def Anchor.exact (a : Anchor) (e : Nat) : Nat := a.baseNs.toNat + e * a.mult.toNat / 2 ^ 32

section Exact

variable {a : Anchor} {e e' : Nat}

theorem exact_mono (h : e ≤ e') : a.exact e ≤ a.exact e' :=
  Nat.add_le_add_left (Nat.div_le_div_right (Nat.mul_le_mul_right _ h)) _

theorem toNat_nsFrom {ticks : BitVec 64} (he : (ticks - a.baseTicks).toNat = e) (hx : a.exact e < 2 ^ 64) :
    (a.nsFrom ticks).toNat = a.exact e := by
  unfold Anchor.exact at hx ⊢
  unfold Anchor.nsFrom
  rw [BitVec.toNat_add, toNat_mulQ32, he, Nat.add_mod_mod, Nat.mod_eq_of_lt hx]

theorem toNat_sub_base {edge T : Nat} (hb : a.baseTicks = BitVec.ofNat 64 edge) (hle : edge ≤ T) (hlt : T < edge + 2 ^ 64) :
    (BitVec.ofNat 64 T - a.baseTicks).toNat = T - edge := by
  obtain ⟨e, rfl⟩ := Nat.exists_eq_add_of_le hle
  rw [hb, BitVec.ofNat_add, BitVec.add_comm, BitVec.add_sub_cancel, BitVec.toNat_ofNat, Nat.add_sub_cancel_left]
  exact Nat.mod_eq_of_lt (by omega)

theorem toNat_add_sub (a : Anchor) (he : e < 2 ^ 64) : (a.baseTicks + BitVec.ofNat 64 e - a.baseTicks).toNat = e := by
  rw [BitVec.add_comm, BitVec.add_sub_cancel, BitVec.toNat_ofNat]
  exact Nat.mod_eq_of_lt he

end Exact

/-! ### Rate edges -/

/-- The clock with, for the statements only, the true tick counts of the last edge and of the last reading, and the
readings, the last one first. -/
structure St where
  anchor : Anchor
  edge : Nat := 0
  now : Nat := 0
  readings : List Nat := []

inductive Op where
  | read (ticks : Nat)
  /-- The edge is read and the anchor repriced with the reading. -/
  | edge (ticks : Nat) (hz : BitVec 32)

namespace St

variable (x : St)

/-- The counter has not gone back, the edge is less than a turn of the counter away and the time is a word. -/
def Within (ticks : Nat) : Prop := x.now ≤ ticks ∧ ticks < x.edge + 2 ^ 64 ∧ x.anchor.exact (ticks - x.edge) < 2 ^ 64

instance (ticks : Nat) : Decidable (x.Within ticks) := inferInstanceAs (Decidable (_ ∧ _))

def ns (ticks : Nat) : BitVec 64 := x.anchor.nsFrom (BitVec.ofNat 64 ticks)

def step : Op → Option St
  | .read ticks => if x.Within ticks then some { x with now := ticks, readings := (x.ns ticks).toNat :: x.readings } else none
  | .edge ticks hz =>
    if x.Within ticks then
      some ⟨x.anchor.reprice (BitVec.ofNat 64 ticks) (x.ns ticks) hz, if hz = 0 then x.edge else ticks, ticks,
        (x.ns ticks).toNat :: x.readings⟩
    else none

end St

/-- A run from `init` on. -/
inductive Reachable (hz : BitVec 32) : St → Prop where
  | init : Reachable hz { anchor := ({} : Anchor).init hz }
  | step {x y : St} (op : Op) (hx : Reachable hz x) (hs : x.step op = some y) : Reachable hz y

structure Inv (x : St) : Prop where
  base : x.anchor.baseTicks = BitVec.ofNat 64 x.edge
  le : x.edge ≤ x.now
  sorted : x.readings.Pairwise (· ≥ ·)
  past : ∀ r ∈ x.readings, r ≤ x.anchor.exact (x.now - x.edge)

variable {x y : St} {ticks : Nat}

theorem Inv.toNat_ns (h : Inv x) (hw : x.Within ticks) : (x.ns ticks).toNat = x.anchor.exact (ticks - x.edge) := by
  obtain ⟨h1, h2, h3⟩ := hw
  exact toNat_nsFrom (toNat_sub_base h.base (h.le.trans h1) h2) h3

theorem Inv.shown (h : Inv x) (hw : x.Within ticks) : ∀ r ∈ x.readings, r ≤ (x.ns ticks).toNat := by
  intro r hr
  rw [h.toNat_ns hw]
  exact (h.past r hr).trans (exact_mono (Nat.sub_le_sub_right hw.1 _))

theorem Inv.step (h : Inv x) {op : Op} (hs : x.step op = some y) : Inv y := by
  cases op with
  | read ticks =>
    obtain ⟨hw, hs⟩ := Option.ite_none_right_eq_some.1 hs
    cases hs
    refine ⟨h.base, h.le.trans hw.1, List.pairwise_cons.2 ⟨h.shown hw, h.sorted⟩, fun r hr => ?_⟩
    have hshow := h.toNat_ns hw
    rcases List.mem_cons.1 hr with rfl | hr
    · exact hshow.le
    · exact (h.shown hw r hr).trans hshow.le
  | edge ticks hz =>
    obtain ⟨hw, hs⟩ := Option.ite_none_right_eq_some.1 hs
    cases hs
    have hshow := h.toNat_ns hw
    have hall : ∀ r ∈ (x.ns ticks).toNat :: x.readings, r ≤ (x.ns ticks).toNat := by
      intro r hr
      rcases List.mem_cons.1 hr with rfl | hr
      · exact le_rfl
      · exact h.shown hw r hr
    unfold Anchor.reprice
    rcases eq_or_ne hz 0 with rfl | hz
    · rw [if_pos rfl, if_pos rfl]
      exact ⟨h.base, h.le.trans hw.1, List.pairwise_cons.2 ⟨h.shown hw, h.sorted⟩, fun r hr => (hall r hr).trans hshow.le⟩
    · rw [if_neg hz, if_neg hz]
      refine ⟨rfl, le_rfl, List.pairwise_cons.2 ⟨h.shown hw, h.sorted⟩, fun r hr => (hall r hr).trans ?_⟩
      exact Nat.le_add_right ..

theorem Reachable.inv {hz : BitVec 32} (h : Reachable hz x) : Inv x := by
  induction h with
  | init =>
    refine ⟨?_, le_rfl, .nil, fun r hr => absurd hr List.not_mem_nil⟩
    unfold Anchor.init
    split
    · rfl
    · rfl
  | step op _ hs ih => exact ih.step hs

theorem ns_edge {hz : BitVec 32} (hs : x.step (.edge ticks hz) = some y) : y.ns ticks = x.ns ticks := by
  obtain ⟨-, hs⟩ := Option.ite_none_right_eq_some.1 hs
  cases hs
  unfold St.ns Anchor.reprice
  rcases eq_or_ne hz 0 with rfl | hz
  · rw [if_pos rfl]
  · rw [if_neg hz]
    dsimp only [Anchor.nsFrom]
    rw [BitVec.sub_self, mulQ32_zero, BitVec.add_zero]

/-! ### The error -/

theorem toNat_recipQ32 (hz : BitVec 32) :
    (recipQ32 (hz.setWidth 64)).toNat = (10 ^ 9 * 2 ^ 32 + hz.toNat / 2) / hz.toNat := by
  have hlt := hz.isLt
  have hwide : (hz.setWidth 64).toNat = hz.toNat := by
    rw [BitVec.toNat_setWidth]
    exact Nat.mod_eq_of_lt (by omega)
  have hsum : (nsPerSec <<< 32 + hz.setWidth 64 >>> 1).toNat = 10 ^ 9 * 2 ^ 32 + hz.toNat / 2 := by
    have hshift : (nsPerSec <<< 32).toNat = 10 ^ 9 * 2 ^ 32 := by decide
    rw [BitVec.toNat_add, hshift, BitVec.toNat_ushiftRight, hwide, Nat.shiftRight_eq_div_pow]
    exact Nat.mod_eq_of_lt (by omega)
  unfold recipQ32
  rw [BitVec.toNat_udiv, hsum, hwide]

theorem abs_recip_sub_le {hz m : Nat} (h : 0 < hz) (hm : m = (10 ^ 9 * 2 ^ 32 + hz / 2) / hz) :
    |(m : ℚ) * hz - 10 ^ 9 * 2 ^ 32| ≤ (hz : ℚ) / 2 := by
  have hdiv := Nat.div_add_mod (10 ^ 9 * 2 ^ 32 + hz / 2) hz
  have hmod := Nat.mod_lt (10 ^ 9 * 2 ^ 32 + hz / 2) h
  rw [← hm] at hdiv
  obtain ⟨r, hr⟩ : ∃ r, r = (10 ^ 9 * 2 ^ 32 + hz / 2) % hz := ⟨_, rfl⟩
  rw [← hr] at hdiv hmod
  -- the remainder and the half of the divisor that was added
  have hsum : (hz : ℚ) * m + r = 10 ^ 9 * 2 ^ 32 + ((hz / 2 : Nat) : ℚ) := by exact_mod_cast hdiv
  have hhalf : 2 * (hz / 2) ≤ hz ∧ hz ≤ 2 * (hz / 2) + 1 := by omega
  have h1 : 2 * ((hz / 2 : Nat) : ℚ) ≤ hz := by exact_mod_cast hhalf.1
  have h2 : (hz : ℚ) ≤ 2 * ((hz / 2 : Nat) : ℚ) + 1 := by exact_mod_cast hhalf.2
  have h3 : (r : ℚ) + 1 ≤ hz := by exact_mod_cast hmod
  have h4 : (0 : ℚ) ≤ r := Nat.cast_nonneg r
  rw [abs_le]
  constructor <;> linarith

theorem abs_floor_sub_le (e n m : Nat) :
    |((((e + n) * m / 2 ^ 32 : Nat) : ℚ) - ((e * m / 2 ^ 32 : Nat) : ℚ)) - n * m / 2 ^ 32| ≤ (1 : ℚ) := by
  have h1 := Nat.div_add_mod ((e + n) * m) (2 ^ 32)
  have h2 := Nat.div_add_mod (e * m) (2 ^ 32)
  have h3 := Nat.mod_lt ((e + n) * m) (Nat.two_pow_pos 32)
  have h4 := Nat.mod_lt (e * m) (Nat.two_pow_pos 32)
  obtain ⟨q, hq⟩ : ∃ q, q = (e + n) * m / 2 ^ 32 := ⟨_, rfl⟩
  obtain ⟨p, hp⟩ : ∃ p, p = e * m / 2 ^ 32 := ⟨_, rfl⟩
  obtain ⟨r, hr⟩ : ∃ r, r = (e + n) * m % 2 ^ 32 := ⟨_, rfl⟩
  obtain ⟨t, ht⟩ : ∃ t, t = e * m % 2 ^ 32 := ⟨_, rfl⟩
  rw [← hq, ← hr] at h1
  rw [← hp, ← ht] at h2
  rw [← hr] at h3
  rw [← ht] at h4
  rw [← hq, ← hp]
  have h1 : (2 ^ 32 : ℚ) * q + r = (e + n) * m := by exact_mod_cast h1
  have h2 : (2 ^ 32 : ℚ) * p + t = e * m := by exact_mod_cast h2
  have h3 : (r : ℚ) < 2 ^ 32 := by exact_mod_cast h3
  have h4 : (t : ℚ) < 2 ^ 32 := by exact_mod_cast h4
  have h5 : (0 : ℚ) ≤ r := Nat.cast_nonneg r
  have h6 : (0 : ℚ) ≤ t := Nat.cast_nonneg t
  have hdiff : (q : ℚ) - p - n * m / 2 ^ 32 = (t - r) / 2 ^ 32 := by
    field_simp
    linarith
  rw [hdiff, abs_le, div_le_one (by positivity), le_div_iff₀ (by positivity)]
  constructor <;> linarith

theorem abs_error_le {hz : BitVec 32} (h : hz ≠ 0) {a : Anchor} (ha : a.mult = recipQ32 (hz.setWidth 64)) (e n : Nat) :
    |((a.exact (e + n) : ℚ) - a.exact e) - n * 10 ^ 9 / hz.toNat| ≤ (n : ℚ) / 2 ^ 33 + 1 := by
  obtain ⟨m, hm⟩ : ∃ m, m = a.mult.toNat := ⟨_, rfl⟩
  have hpos : 0 < hz.toNat := Nat.pos_of_ne_zero fun h0 => h (BitVec.eq_of_toNat_eq h0)
  have hposq : (0 : ℚ) < hz.toNat := by exact_mod_cast hpos
  have hrecip := abs_recip_sub_le hpos (hm.trans (ha ▸ toNat_recipQ32 hz))
  have hfloor := abs_floor_sub_le e n m
  have hprice : |(n : ℚ) * m / 2 ^ 32 - n * 10 ^ 9 / hz.toNat| ≤ (n : ℚ) / 2 ^ 33 := by
    have heq : (n : ℚ) * m / 2 ^ 32 - n * 10 ^ 9 / hz.toNat = n / (2 ^ 32 * hz.toNat) * (m * hz.toNat - 10 ^ 9 * 2 ^ 32) := by
      field_simp
    rw [heq, abs_mul, abs_of_nonneg (by positivity)]
    calc (n : ℚ) / (2 ^ 32 * hz.toNat) * |(m : ℚ) * hz.toNat - 10 ^ 9 * 2 ^ 32|
        ≤ n / (2 ^ 32 * hz.toNat) * (hz.toNat / 2) := mul_le_mul_of_nonneg_left hrecip (by positivity)
      _ = n / 2 ^ 33 := by field_simp
  unfold Anchor.exact
  rw [← hm]
  push_cast at hfloor ⊢
  rw [abs_le] at hfloor hprice ⊢
  constructor <;> linarith

/-! ### The conversion -/

/-- The split multiply is the floor of the product; the time does not go back while it is a word; over rate edges it is
continuous and does not go back, across a wrap of the counter too; and an interval is off by at most `n / 2 ^ 33 + 1`.
-/
theorem clock_converts :
    (∀ ticks mult : BitVec 64, (mulQ32 ticks mult).toNat = ticks.toNat * mult.toNat / 2 ^ 32 % 2 ^ 64) ∧
    (∀ (a : Anchor) (e e' : Nat), e ≤ e' → e' < 2 ^ 64 → a.exact e' < 2 ^ 64 →
      a.nsFrom (a.baseTicks + BitVec.ofNat 64 e) ≤ a.nsFrom (a.baseTicks + BitVec.ofNat 64 e')) ∧
    (∀ (hz : BitVec 32) (x : St), hz ≠ 0 → Reachable hz x → x.readings.Pairwise (· ≥ ·) ∧
      ∀ ticks hz' y, x.step (.edge ticks hz') = some y → y.ns ticks = x.ns ticks) ∧
    ∀ (hz : BitVec 32) (a : Anchor) (e n : Nat), hz ≠ 0 → a.mult = recipQ32 (hz.setWidth 64) → e + n < 2 ^ 64 →
      a.exact (e + n) < 2 ^ 64 → |(((a.nsFrom (a.baseTicks + BitVec.ofNat 64 (e + n))).toNat : ℚ) -
      (a.nsFrom (a.baseTicks + BitVec.ofNat 64 e)).toNat) - n * 10 ^ 9 / hz.toNat| ≤ (n : ℚ) / 2 ^ 33 + 1 := by
  refine ⟨toNat_mulQ32, fun a e e' hle hlt hx => ?_, fun hz x _ hr => ⟨hr.inv.sorted, fun ticks hz' y hs => ns_edge hs⟩,
    fun hz a e n h ha hlt hx => ?_⟩
  · rw [BitVec.le_def, toNat_nsFrom (toNat_add_sub a (hle.trans_lt hlt)) ((exact_mono hle).trans_lt hx),
      toNat_nsFrom (toNat_add_sub a hlt) hx]
    exact exact_mono hle
  · rw [toNat_nsFrom (toNat_add_sub a hlt) hx,
      toNat_nsFrom (toNat_add_sub a (by omega)) ((exact_mono (Nat.le_add_right e n)).trans_lt hx)]
    exact abs_error_le h ha e n

/-- A clock at the highest rate that has gone to 1 MHz on the last tick before its counter turns. -/
def turning : St := ⟨⟨(({} : Anchor).init 0xffffffff).nsFrom (BitVec.ofNat 64 (2 ^ 64 - 1)),
    BitVec.ofNat 64 (2 ^ 64 - 1), recipQ32 1000000⟩, 2 ^ 64 - 1, 2 ^ 64 - 1,
    [((({} : Anchor).init 0xffffffff).nsFrom (BitVec.ofNat 64 (2 ^ 64 - 1))).toNat]⟩

/-- The run over the turn and a reading behind it, and three microseconds at 16 MHz. -/
theorem clock_converts_turning : (∃ z, turning.step (.read (2 ^ 64 + 9)) = some z ∧ z.readings.length = 2 ∧
    z.readings.Pairwise (· ≥ ·)) ∧ turning.ns (2 ^ 64 - 1) = ({ anchor := ({} : Anchor).init 0xffffffff } : St).ns
    (2 ^ 64 - 1) ∧ (({} : Anchor).init 16000000).nsFrom (0 + BitVec.ofNat 64 16) ≤
    (({} : Anchor).init 16000000).nsFrom (0 + BitVec.ofNat 64 64) ∧
    |((((({} : Anchor).init 16000000).nsFrom (0 + BitVec.ofNat 64 (16 + 48))).toNat : ℚ) -
        ((({} : Anchor).init 16000000).nsFrom (0 + BitVec.ofNat 64 16)).toNat) - (48 : Nat) * 10 ^ 9 /
          (16000000 : BitVec 32).toNat| ≤
      ((48 : Nat) : ℚ) / 2 ^ 33 + 1 := by
  obtain ⟨-, hmono, hruns, herror⟩ := clock_converts
  have hedge : ({ anchor := ({} : Anchor).init 0xffffffff } : St).step (.edge (2 ^ 64 - 1) 1000000) = some turning := by
    rw [St.step, if_pos (by decide +kernel)]
    rfl
  have hread : turning.step (.read (2 ^ 64 + 9)) =
      some { turning with now := 2 ^ 64 + 9, readings := (turning.ns (2 ^ 64 + 9)).toNat :: turning.readings } := by
    rw [St.step, if_pos (by decide +kernel)]
  refine ⟨⟨_, hread, rfl, ?_⟩, ?_, ?_, ?_⟩
  · exact (hruns 0xffffffff _ (by decide) ((Reachable.init.step _ hedge).step _ hread)).1
  · exact (hruns 0xffffffff _ (by decide) .init).2 _ _ _ hedge
  · exact hmono (({} : Anchor).init 16000000) 16 64 (by decide) (by decide) (by decide +kernel)
  · exact herror 16000000 (({} : Anchor).init 16000000) 16 48 (by decide) rfl (by decide) (by decide +kernel)

/-- A whole turn of the counter behind the edge: at the highest rate the time is still a word there, and goes back. -/
theorem turn_goes_back : (({} : Anchor).init 0xffffffff).exact (2 ^ 64) < 2 ^ 64 ∧
    (({} : Anchor).init 0xffffffff).nsFrom (BitVec.ofNat 64 (2 ^ 64)) <
      (({} : Anchor).init 0xffffffff).nsFrom (BitVec.ofNat 64 (2 ^ 64 - 1)) := by
  decide +kernel

end KickOS.Clock
