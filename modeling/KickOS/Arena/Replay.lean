import KickOS.Arena.Compose

/-! The composer's replay of the arena and the boot's allocations agree: the one refuses exactly where the other answers null. -/

namespace KickOS.Arena

open Lib.Extent

variable {w : Nat} {c : Seams w} {a : Ram w} {want : BitVec w}

/-- One block of `check_arena`'s replay; a figure of 0 is no block. -/
def carve (m : Manifest) (cursor want : Nat) : Nat :=
  if want = 0 then cursor else ceilTo cursor (ramAlign m want) + ramSize m want

/-- `check_arena` over one arena. -/
def arenaRefused (m : Manifest) (base size : Nat) (wants : List Nat) : Bool := decide (base + size < wants.foldl (carve m) base)

/-- What the boot's allocations answer, one after the other. -/
def Ram.allocAll (c : Seams w) (a : Ram w) : List (BitVec w) → List (BitVec w)
  | [] => []
  | size :: l => (a.alloc c size).2 :: (a.alloc c size).1.allocAll c l

/-- An arena inside the address space that a 32-bit count of its bytes can hold. -/
structure Ram.Sound (a : Ram w) : Prop where
  base : a.base ≠ 0
  fits : a.base.toNat + a.total.toNat ≤ 2 ^ w
  narrow : a.total.toNat < 2 ^ 32
  used : a.used.toNat ≤ a.total.toNat

/-- The end of the bytes that are spent. -/
def Ram.cursor (a : Ram w) : Nat := a.base.toNat + a.used.toNat

/-- The allocator's test of the next block, over the words it computes. -/
def Ram.room (c : Seams w) (a : Ram w) (size : BitVec w) : Prop :=
  a.base + a.used.setWidth w ≤ (a.base + a.used.setWidth w + (regionAlign c size - 1)) &&& ~~~(regionAlign c size - 1) ∧
  ((a.base + a.used.setWidth w + (regionAlign c size - 1)) &&& ~~~(regionAlign c size - 1)) - a.base ≤ a.total ∧
  regionSize c size ≤ a.total - (((a.base + a.used.setWidth w + (regionAlign c size - 1)) &&&
    ~~~(regionAlign c size - 1)) - a.base)

theorem Ram.toNat_cur (a : Ram w) (hw : 32 ≤ w) : (a.base + a.used.setWidth w).toNat = a.cursor % 2 ^ w := by
  have h32 : 2 ^ 32 ≤ 2 ^ w := Nat.pow_le_pow_right Nat.two_pos hw
  have hu := a.used.isLt
  rw [BitVec.toNat_add, BitVec.toNat_setWidth, Nat.mod_eq_of_lt (by omega : a.used.toNat < 2 ^ w)]
  rfl

/-- Whatever the region rule answers, a block follows the bytes that are spent, or nothing is. -/
theorem Ram.Sound.alloc_cases (h : a.Sound) (hw : 32 ≤ w) (c : Seams w) (want : BitVec w) :
    a.alloc c want = (a, 0) ∨
      ∃ a' p, a.alloc c want = (a', p) ∧ p ≠ 0 ∧ a'.Sound ∧ a'.base = a.base ∧ a'.total = a.total ∧
        a.cursor ≤ p.toNat ∧ p.toNat + (regionSize c want).toNat = a'.cursor := by
  have hfits := h.fits
  have hused := h.used
  have hnar := h.narrow
  have hcur := a.toNat_cur hw
  have hb := toNat_pos h.base
  have hcursor : a.cursor = a.base.toNat + a.used.toNat := rfl
  have h32 : 2 ^ 32 ≤ 2 ^ w := Nat.pow_le_pow_right Nat.two_pos hw
  unfold Ram.alloc
  split
  · exact .inl rfl
  dsimp only
  generalize regionSize c want = rsz
  generalize regionAlign c want - 1 = mask
  split
  next hroom =>
    obtain ⟨h1, h2, h3⟩ := hroom
    rcases Nat.lt_or_ge a.cursor (2 ^ w) with hlt | hge
    · rw [Nat.mod_eq_of_lt hlt] at hcur
      generalize (a.base + a.used.setWidth w + mask) &&& ~~~mask = aligned at h1 h2 h3 ⊢
      rw [BitVec.le_def, hcur] at h1
      have hoff : (aligned - a.base).toNat = aligned.toNat - a.base.toNat :=
        BitVec.toNat_sub_of_le (BitVec.le_def.2 (by omega))
      rw [BitVec.le_def, BitVec.toNat_sub_of_le h2, hoff] at h3
      rw [BitVec.le_def, hoff] at h2
      have hsum : (aligned - a.base + rsz).toNat = aligned.toNat - a.base.toNat + rsz.toNat := by
        rw [BitVec.toNat_add, hoff]
        exact Nat.mod_eq_of_lt (by omega)
      have hword : ((aligned - a.base + rsz).setWidth 32).toNat = aligned.toNat - a.base.toNat + rsz.toNat := by
        rw [BitVec.toNat_setWidth, hsum]
        exact Nat.mod_eq_of_lt (by omega)
      refine .inr ⟨_, aligned, rfl, fun h0 => ?_, ⟨h.base, hfits, hnar, ?_⟩, rfl, rfl, h1, ?_⟩
      · rw [h0] at h1
        exact absurd h1 (Nat.not_le.2 (by rw [hcursor]; exact Nat.lt_of_lt_of_le hb (Nat.le_add_right ..)))
      · dsimp only
        rw [hword]
        omega
      · unfold cursor
        dsimp only
        rw [hword]
        omega
    · -- the arena is spent up to the top of the address space: only an empty block passes the test, at address 0
      have he : a.cursor = 2 ^ w := by omega
      rw [he, Nat.mod_self] at hcur
      have hz : a.base + a.used.setWidth w = 0 := BitVec.eq_of_toNat_eq hcur
      have h0 : (0 + mask) &&& ~~~mask = 0 := by
        rw [BitVec.ofNat_eq_ofNat, BitVec.zero_add, BitVec.and_not_self]
        rfl
      rw [hz, h0] at h2 h3 ⊢
      have hoff : (0 - a.base).toNat = a.total.toNat := by
        rw [BitVec.toNat_sub, BitVec.ofNat_eq_ofNat, BitVec.toNat_ofNat, Nat.zero_mod, Nat.add_zero]
        exact (Nat.mod_eq_of_lt (by omega)).trans (by omega)
      have hrsz : rsz.toNat = 0 := by
        rw [BitVec.le_def, BitVec.toNat_sub_of_le h2, hoff] at h3
        omega
      have hword : (0 - a.base + rsz).setWidth 32 = a.used := by
        refine BitVec.eq_of_toNat_eq ?_
        rw [BitVec.toNat_setWidth, BitVec.toNat_add, hoff, hrsz, Nat.add_zero,
          Nat.mod_eq_of_lt (by omega : a.total.toNat < 2 ^ w), Nat.mod_eq_of_lt hnar]
        omega
      rw [hword]
      exact .inl rfl
  · exact .inl rfl

section Step

variable (h : a.Sound) (hc : c.Sound) (hw : 32 ≤ w) (hn : want ≠ 0) (hf : ramSize (seamManifest c) want.toNat < 2 ^ w)

include h hc hw hn hf in
/-- The test asks whether the block, as the composer places it, ends inside the arena. -/
theorem Ram.Sound.room_iff : a.room c want ↔ carve (seamManifest c) a.cursor want.toNat ≤ a.base.toNat + a.total.toNat := by
  have hfits := h.fits
  have hused := h.used
  have hcur := a.toNat_cur hw
  have hR := hc.regionSize_toNat hw hf
  have hpos : 0 < ramSize (seamManifest c) want.toNat := (toNat_pos hn).trans_le hc.le_ramSize
  obtain ⟨hA, hp⟩ := hc.regionAlign_toNat hw hf
  have hApos := Nat.pos_of_isPowerOfTwo hp
  have hle := le_ceilTo (x := a.cursor) hApos
  unfold carve
  rw [if_neg (toNat_pos hn).ne']
  unfold room
  have hcursor : a.cursor = a.base.toNat + a.used.toNat := rfl
  rcases Nat.lt_or_ge a.cursor (2 ^ w) with hlt | hge
  · rw [Nat.mod_eq_of_lt hlt] at hcur
    rcases roundUp_toNat (b := a.base + a.used.setWidth w) (hA ▸ hp) with ⟨he, hlt'⟩ | ⟨hlt', hge⟩
    · rw [hcur, hA] at he hlt'
      generalize (a.base + a.used.setWidth w + (regionAlign c want - 1)) &&& ~~~(regionAlign c want - 1) = aligned at he ⊢
      have hoff : (aligned - a.base).toNat = aligned.toNat - a.base.toNat :=
        BitVec.toNat_sub_of_le (BitVec.le_def.2 (by omega))
      constructor
      · rintro ⟨-, h2, h3⟩
        rw [BitVec.le_def, BitVec.toNat_sub_of_le h2, hoff, hR] at h3
        rw [BitVec.le_def, hoff] at h2
        omega
      · intro hin
        have h2 : aligned - a.base ≤ a.total := BitVec.le_def.2 (by rw [hoff]; omega)
        refine ⟨BitVec.le_def.2 (by omega), h2, ?_⟩
        rw [BitVec.le_def, BitVec.toNat_sub_of_le h2, hoff, hR]
        omega
    · rw [hcur, hA] at hge
      constructor
      · rintro ⟨h1, -⟩
        rw [BitVec.le_def] at h1
        rw [BitVec.lt_def] at hlt'
        omega
      · intro hin
        omega
  · -- the arena is spent up to the top of the address space
    have he : a.cursor = 2 ^ w := by omega
    rw [he, Nat.mod_self] at hcur
    have hz : a.base + a.used.setWidth w = 0 := BitVec.eq_of_toNat_eq hcur
    constructor
    · rintro ⟨-, h2, h3⟩
      rw [BitVec.le_def, BitVec.toNat_sub_of_le h2, hR, hz] at h3
      have h0 : ((0 + (regionAlign c want - 1)) &&& ~~~(regionAlign c want - 1)).toNat = 0 := by
        rw [toNat_and_not_pred (hA ▸ hp), BitVec.ofNat_eq_ofNat, BitVec.zero_add, toNat_pred (hA ▸ hApos), hA,
          Nat.div_eq_of_lt (Nat.sub_lt hApos Nat.one_pos), Nat.zero_mul]
      have hb := toNat_pos h.base
      have hblt := a.base.isLt
      rw [BitVec.toNat_sub, h0, Nat.add_zero, Nat.mod_eq_of_lt (by omega)] at h3
      omega
    · intro hin
      omega

include h hc hw hn hf in
theorem Ram.Sound.alloc_spec :
    carve (seamManifest c) a.cursor want.toNat ≤ a.base.toNat + a.total.toNat ∧
      (∃ a' p, a.alloc c want = (a', p) ∧ a'.Sound ∧ a'.base = a.base ∧ a'.total = a.total ∧ p ≠ 0 ∧
        a'.cursor = carve (seamManifest c) a.cursor want.toNat ∧
        p.toNat = ceilTo a.cursor (ramAlign (seamManifest c) want.toNat)) ∨
    a.base.toNat + a.total.toNat < carve (seamManifest c) a.cursor want.toNat ∧ a.alloc c want = (a, 0) := by
  have hroom := h.room_iff hc hw hn hf
  rcases Nat.lt_or_ge (a.base.toNat + a.total.toNat) (carve (seamManifest c) a.cursor want.toNat) with hlt | hge
  · refine .inr ⟨hlt, ?_⟩
    unfold Ram.alloc
    rw [if_neg hn]
    exact if_neg fun hr => absurd (hroom.1 hr) (Nat.not_le.2 hlt)
  · refine .inl ⟨hge, ?_⟩
    have hr := hroom.2 hge
    have hcur := a.toNat_cur hw
    have hfits := h.fits
    have hnar := h.narrow
    have h32 : 2 ^ 32 ≤ 2 ^ w := Nat.pow_le_pow_right Nat.two_pos hw
    have hR := hc.regionSize_toNat hw hf
    have hpos : 0 < ramSize (seamManifest c) want.toNat := (toNat_pos hn).trans_le hc.le_ramSize
    obtain ⟨hA, hp⟩ := hc.regionAlign_toNat hw hf
    have hle := le_ceilTo (x := a.cursor) (Nat.pos_of_isPowerOfTwo hp)
    have hcursor : a.cursor = a.base.toNat + a.used.toNat := rfl
    have hb := toNat_pos h.base
    have hca : carve (seamManifest c) a.cursor want.toNat =
        ceilTo a.cursor (ramAlign (seamManifest c) want.toNat) + ramSize (seamManifest c) want.toNat := if_neg (toNat_pos hn).ne'
    rw [Nat.mod_eq_of_lt (by omega)] at hcur
    obtain ⟨aligned, hal⟩ : ∃ x, x = (a.base + a.used.setWidth w + (regionAlign c want - 1)) &&&
        ~~~(regionAlign c want - 1) := ⟨_, rfl⟩
    have he : aligned.toNat = ceilTo a.cursor (ramAlign (seamManifest c) want.toNat) := by
      rcases roundUp_toNat (b := a.base + a.used.setWidth w) (hA ▸ hp) with ⟨he, -⟩ | ⟨-, hge'⟩
      · rw [hal, he, hcur, hA]
      · rw [hcur, hA] at hge'
        omega
    have halloc : a.alloc c want = ({ a with used := (aligned - a.base + regionSize c want).setWidth 32 }, aligned) := by
      unfold Ram.alloc
      rw [if_neg hn, hal]
      exact if_pos hr
    have hoff : (aligned - a.base).toNat = aligned.toNat - a.base.toNat := BitVec.toNat_sub_of_le (BitVec.le_def.2 (by omega))
    have hsum : (aligned - a.base + regionSize c want).toNat = carve (seamManifest c) a.cursor want.toNat - a.base.toNat := by
      rw [BitVec.toNat_add, hoff, hR, Nat.mod_eq_of_lt (by omega)]
      omega
    have hused : ((aligned - a.base + regionSize c want).setWidth 32).toNat =
        carve (seamManifest c) a.cursor want.toNat - a.base.toNat := by
      rw [BitVec.toNat_setWidth, hsum, Nat.mod_eq_of_lt (by omega)]
    refine ⟨_, _, halloc, ⟨h.base, h.fits, h.narrow, ?_⟩, rfl, rfl, ?_, ?_, he⟩
    · change ((aligned - a.base + regionSize c want).setWidth 32).toNat ≤ a.total.toNat
      omega
    · rintro hz
      rw [hz] at he
      change 0 = _ at he
      omega
    · change a.base.toNat + ((aligned - a.base + regionSize c want).setWidth 32).toNat = _
      omega

end Step

theorem le_carve (hc : c.Sound) (hw : 32 ≤ w) (hf : ramSize (seamManifest c) want.toNat < 2 ^ w) (cursor : Nat) :
    cursor ≤ carve (seamManifest c) cursor want.toNat := by
  unfold carve
  split_ifs
  · exact le_rfl
  · have hp := (hc.regionAlign_toNat hw hf).2
    exact (le_ceilTo (Nat.pos_of_isPowerOfTwo hp)).trans (Nat.le_add_right ..)

theorem le_carve_all (hc : c.Sound) (hw : 32 ≤ w) {wants : List (BitVec w)}
    (hf : ∀ x ∈ wants, ramSize (seamManifest c) x.toNat < 2 ^ w) (cursor : Nat) :
    cursor ≤ (wants.map BitVec.toNat).foldl (carve (seamManifest c)) cursor := by
  induction wants generalizing cursor with
  | nil => exact le_rfl
  | cons x l ih =>
    exact (le_carve hc hw (hf x (List.mem_cons_self ..)) cursor).trans (ih (fun y hy => hf y (List.mem_cons_of_mem _ hy)) _)

theorem Ram.Sound.null_iff (h : a.Sound) (hc : c.Sound) (hw : 32 ≤ w) {wants : List (BitVec w)}
    (hn : ∀ x ∈ wants, x ≠ 0) (hf : ∀ x ∈ wants, ramSize (seamManifest c) x.toNat < 2 ^ w) :
    0 ∈ a.allocAll c wants ↔
      a.base.toNat + a.total.toNat < (wants.map BitVec.toNat).foldl (carve (seamManifest c)) a.cursor := by
  induction wants generalizing a with
  | nil =>
    have hu := h.used
    refine ⟨fun hm => absurd hm List.not_mem_nil, fun hlt => ?_⟩
    change _ < a.base.toNat + a.used.toNat at hlt
    omega
  | cons x l ih =>
    have hnx := hn x (List.mem_cons_self ..)
    have hfx := hf x (List.mem_cons_self ..)
    have hnl : ∀ y ∈ l, y ≠ 0 := fun y hy => hn y (List.mem_cons_of_mem _ hy)
    have hfl : ∀ y ∈ l, ramSize (seamManifest c) y.toNat < 2 ^ w := fun y hy => hf y (List.mem_cons_of_mem _ hy)
    rw [Ram.allocAll, List.mem_cons, List.map_cons, List.foldl_cons]
    rcases h.alloc_spec hc hw hnx hfx with ⟨-, a', p, he, ha', hb, ht, hp, hcur, -⟩ | ⟨hlt, he⟩
    · rw [he, ← hb, ← ht, ← hcur]
      rw [or_iff_right (fun h0 => hp h0.symm)]
      exact ih ha' hnl hfl
    · rw [he]
      exact ⟨fun _ => hlt.trans_le (le_carve_all hc hw hfl _), fun _ => .inl rfl⟩

theorem carve_export (c : Seams w) : carve (exportManifest c) = carve (seamManifest c) := by
  funext cursor n
  unfold carve
  split_ifs with hn
  · rfl
  · rw [ramSize_export (Nat.pos_of_ne_zero hn), ramAlign_export (Nat.pos_of_ne_zero hn)]

/-- The composer's figures are the build's where they are words, and it refuses a list of requests exactly where one of the
boot's allocations, made in the same order from the arena's start, answers null. -/
theorem check_arena_agrees (hw : 32 ≤ w) (hc : c.Sound) (base total : BitVec w) (hb : base ≠ 0)
    (hfit : base.toNat + total.toNat ≤ 2 ^ w) (hnar : total.toNat < 2 ^ 32) (wants : List (BitVec w)) (hn : ∀ x ∈ wants, x ≠ 0)
    (hf : ∀ x ∈ wants, ramSize (seamManifest c) x.toNat < 2 ^ w) :
    (∀ x : BitVec w, ramSize (seamManifest c) x.toNat < 2 ^ w →
      (regionSize c x).toNat = ramSize (seamManifest c) x.toNat ∧ (regionAlign c x).toNat = ramAlign (seamManifest c) x.toNat) ∧
    (arenaRefused (seamManifest c) base.toNat total.toNat (wants.map BitVec.toNat) = true ↔
      0 ∈ Ram.allocAll c { base := base, total := total } wants) ∧
    (arenaRefused (exportManifest c) base.toNat total.toNat (wants.map BitVec.toNat) = true ↔
      0 ∈ Ram.allocAll c { base := base, total := total } wants) := by
  refine ⟨fun x hx => ⟨hc.regionSize_toNat hw hx, (hc.regionAlign_toNat hw hx).1⟩, ?_⟩
  unfold arenaRefused
  rw [carve_export, and_self]
  have h : Ram.Sound { base := base, total := total } := ⟨hb, hfit, hnar, Nat.zero_le _⟩
  rw [h.null_iff hc hw hn hf]
  exact decide_eq_true_iff

/-- A unit of power-of-two windows from 32 bytes on. -/
def smallUnit : Seams 32 where
  min := 32
  pow2 := true
  stride := 0

theorem smallUnit_sound : smallUnit.Sound := ⟨fun _ => ⟨5, rfl⟩, fun h => absurd rfl h⟩

theorem check_arena_agrees_smallUnit :
    arenaRefused (seamManifest smallUnit) 0x20000000 0x1000 [0x300, 0x800, 0x500] = true ∧
    0 ∈ Ram.allocAll smallUnit { base := 0x20000000, total := 0x1000 } [0x300, 0x800, 0x500] :=
  ⟨by decide +kernel,
    ((check_arena_agrees (le_refl 32) smallUnit_sound 0x20000000 0x1000 (by decide) (by decide +kernel)
      (by decide +kernel) [0x300, 0x800, 0x500] (fun x hx => by fin_cases hx <;> decide +kernel)
      (fun x hx => by fin_cases hx <;> decide +kernel)).2.1).1 (by decide +kernel)⟩

/-- A build without a unit on 64-bit words. -/
def wideUnit : Seams 64 where
  min := 0
  pow2 := false
  stride := 0

/-- The composer passes a request of no bytes, which the allocator answers with null, and the block at address 0; an arena of
4 GiB and more is counted in 32 bits, so the boot goes on where the composer refuses. -/
theorem replay_differs :
    (arenaRefused (seamManifest smallUnit) 0x20000000 0x1000 [0] = false ∧
      0 ∈ Ram.allocAll smallUnit { base := 0x20000000, total := 0x1000 } [0]) ∧
    (arenaRefused (seamManifest smallUnit) 0 0x1000 [32] = false ∧
      0 ∈ Ram.allocAll smallUnit { base := 0, total := 0x1000 } [32]) ∧
    (arenaRefused (seamManifest wideUnit) 0x100000000 0x200000000 [0x100000000, 0x100000000, 0x100000000] = true ∧
      0 ∉ Ram.allocAll wideUnit { base := 0x100000000, total := 0x200000000 } [0x100000000, 0x100000000, 0x100000000]) := by
  refine ⟨⟨?_, ?_⟩, ⟨?_, ?_⟩, ?_, ?_⟩ <;> decide +kernel

end KickOS.Arena
