import KickOS.Mpu.Set

/-! The kernel is no confused deputy.

Where every two regions of a set that meet are decided by the unit as the kernel decides them, a byte the kernel's
checks admit is one the thread can reach itself. The argument is over the descriptors that hold the byte: read along
the slots, the right to read only grows, or only shrinks, towards the one that decides. -/

namespace KickOS
namespace Mpu

theorem Encoder.grant_read (e : Encoder) {a : Attr} (h : a.r = true) : (e.grant a).read = true := by
  cases e with
  | code => rfl
  | readable => rfl
  | literal => exact h

namespace MpuSet

variable {B : Board} {s : MpuSet B} {p q r : Region B.bits} {a ptr len fin base size : BitVec B.bits} {attr : Attr}
  {i j : Nat}

/-! ### The set in its slots -/

def Seated (B : Board) (r : Region B.bits) : Prop := B.encodable r.base r.size = true

/-- The unit decides what a region shares with one of a higher slot as the kernel does. -/
def Fits (p q : Region B.bits) : Prop :=
  B.overlapExpressible p (B.encodable p.base p.size) q (B.encodable q.base q.size) = true

theorem seated_eq (h : i < s.regions.length) : s.seated i = B.encodable s.regions[i].base s.regions[i].size := by
  simp [seated, s.encoded, Board.encode, h]

theorem getD_eq (h : i < s.regions.length) : s.regions.getD i ⟨0, 0, {}⟩ = s.regions[i] := by
  simp [List.getD_eq_getElem?_getD, h]

theorem admits_iff {rSeated : Bool} : s.admits r j rSeated = true ↔ ∀ i (h : i < s.regions.length),
    (i < j → B.overlapExpressible s.regions[i] (B.encodable s.regions[i].base s.regions[i].size) r rSeated = true) ∧
    (j < i → B.overlapExpressible r rSeated s.regions[i] (B.encodable s.regions[i].base s.regions[i].size) = true) := by
  simp only [admits, List.all_eq_true, List.mem_range]
  refine forall_congr' fun i => forall_congr' fun h => ?_
  rw [seated_eq h, getD_eq h]
  split_ifs with h1 h2
  · simp [h1, Nat.not_lt.mpr h1.le]
  · simp [h1, h2]
  · simp [h1, h2]

theorem overlapsExpressible_iff : s.overlapsExpressible = true ↔ s.regions.Pairwise Fits := by
  rw [List.pairwise_iff_getElem]
  simp only [overlapsExpressible, List.all_eq_true, List.mem_range]
  constructor
  · intro h i j hi hj hij
    have := h i hi
    rw [seated_eq hi, getD_eq hi, admits_iff] at this
    exact (this j hj).2 hij
  · intro h i hi
    rw [seated_eq hi, getD_eq hi, admits_iff]
    exact fun j hj => ⟨fun hji => h j i hj hi hji, fun hij => h i j hi hj hij⟩

/-! ### Bytes -/

theorem covers_iff : covers B r a = true ↔ r.size ≠ 0 ∧ r.base ≤ a ∧ a ≤ B.last r := by
  simp [covers, and_assoc]

theorem Fits.grant (h : Fits p q) (hp : covers B p a = true) (hq : covers B q a = true) :
    B.overlapGrant p (B.encodable p.base p.size) q (B.encodable q.base q.size) =
      some ⟨p.attr.r || q.attr.r, p.attr.w && q.attr.w⟩ := by
  obtain ⟨hp0, hp1, hp2⟩ := covers_iff.mp hp
  obtain ⟨hq0, hq1, hq2⟩ := covers_iff.mp hq
  have hmeet : ¬ (p.size = 0 ∨ q.size = 0 ∨ B.last q < p.base ∨ B.last p < q.base) := by
    rintro (h | h | h | h)
    · exact hp0 h
    · exact hq0 h
    · exact BitVec.not_lt.mpr (BitVec.le_trans hp1 hq2) h
    · exact BitVec.not_lt.mpr (BitVec.le_trans hq1 hp2) h
  unfold Fits Board.overlapExpressible at h
  rw [if_neg hmeet] at h
  split_ifs at h
  exact of_decide_eq_true h

theorem Fits.both (h : Fits p q) (hp : covers B p a = true) (hq : covers B q a = true) (hps : Seated B p)
    (hqs : Seated B q) : B.rule ≠ .faults ∧
      (B.rule = .higher → p.attr.r = true → q.attr.r = true) ∧ (B.rule = .lower → q.attr.r = true → p.attr.r = true) := by
  have hg := h.grant hp hq
  unfold Seated at hps hqs
  simp only [Board.overlapGrant, hps, hqs, Attr.grant, Bool.true_eq_false, or_self, if_false] at hg
  cases hr : B.rule with
  | faults => simp [hr] at hg
  | higher =>
    simp only [hr, Option.some.injEq, Grant.mk.injEq] at hg
    refine ⟨by simp, fun _ h => ?_, by simp⟩
    rw [hg.1, h, Bool.true_or]
  | lower =>
    simp only [hr, Option.some.injEq, Grant.mk.injEq] at hg
    refine ⟨by simp, by simp, fun _ h => ?_⟩
    rw [hg.1, h, Bool.or_true]
  | union => simp

/-! ### The descriptors that decide a byte -/

/-- The regions whose descriptors hold the byte. -/
def holders (s : MpuSet B) (a : BitVec B.bits) : List (Region B.bits) :=
  s.regions.filter fun r => B.encodable r.base r.size && covers B r a

theorem mem_holders : r ∈ s.holders a ↔ r ∈ s.regions ∧ Seated B r ∧ covers B r a = true := by
  simp [holders, Seated]

theorem deciding_eq : s.deciding a = (s.holders a).map Region.attr := rfl

/-- A byte some descriptor holds may be read where one of their regions may be, or all of them, if the set is expressible. -/
theorem hardware_read (he : s.regions.Pairwise Fits) (hr : r ∈ s.holders a)
    (hread : r.attr.r = true ∨ B.encoder = .readable) : (s.hardware a).read = true := by
  have hgrant : ∀ q : Region B.bits, (r.attr.r = true → q.attr.r = true) → (B.encoder.grant q.attr).read = true := by
    intro q hq
    rcases hread with h | h
    · exact B.encoder.grant_read (hq h)
    · rw [h]
      rfl
  have hpair : (s.holders a).Pairwise Fits := he.filter _
  have hmem : ∀ q ∈ s.holders a, Seated B q ∧ covers B q a = true := fun q hq => (mem_holders.mp hq).2
  unfold hardware
  rw [deciding_eq]
  cases hrule : B.rule with
  | faults =>
    rcases hl : s.holders a with _ | ⟨x, _ | ⟨y, l⟩⟩
    · rw [hl] at hr
      cases hr
    · rw [hl, List.mem_singleton] at hr
      subst hr
      exact hgrant r id
    · -- two descriptors on one byte are never expressible here
      rw [hl] at hpair hmem
      have hxy := List.rel_of_pairwise_cons hpair (show y ∈ _ by simp)
      obtain ⟨hx1, hx2⟩ := hmem x (by simp)
      obtain ⟨hy1, hy2⟩ := hmem y (by simp)
      exact absurd hrule (hxy.both hx2 hy2 hx1 hy1).1
  | higher =>
    rcases List.eq_nil_or_concat' (s.holders a) with hl | ⟨l, y, hl⟩
    · rw [hl] at hr
      cases hr
    · obtain ⟨hy1, hy2⟩ := hmem y (by simp [hl])
      have hy : r.attr.r = true → y.attr.r = true := by
        intro hr'
        rw [hl, List.mem_append, List.mem_singleton] at hr
        rcases hr with hr | rfl
        · obtain ⟨hr1, hr2⟩ := hmem r (by simp [hl, hr])
          rw [hl, List.pairwise_append] at hpair
          exact ((hpair.2.2 r hr y (by simp)).both hr2 hy2 hr1 hy1).2.1 hrule hr'
        · exact hr'
      rw [hl, List.map_append, List.map_singleton]
      cases l with
      | nil => exact hgrant y hy
      | cons x l => simpa using hgrant y hy
  | lower =>
    rcases hl : s.holders a with _ | ⟨x, l⟩
    · rw [hl] at hr
      cases hr
    · rw [hl] at hr hpair hmem
      obtain ⟨hx1, hx2⟩ := hmem x (by simp)
      refine hgrant x fun hr' => ?_
      rcases List.mem_cons.mp hr with rfl | hr
      · exact hr'
      · obtain ⟨hr1, hr2⟩ := hmem r (List.mem_cons_of_mem _ hr)
        exact ((List.rel_of_pairwise_cons hpair hr).both hx2 hr2 hx1 hr1).2.2 hrule hr'
  | union =>
    rcases hl : s.holders a with _ | ⟨x, l⟩
    · rw [hl] at hr
      cases hr
    · rw [hl] at hr
      exact List.any_eq_true.mpr ⟨r.attr, List.mem_map_of_mem (f := Region.attr) hr, hgrant r id⟩

/-- A byte some descriptor holds may be written where all of them grant it, if the set is expressible. -/
theorem hardware_write (he : s.regions.Pairwise Fits) (hr : r ∈ s.holders a)
    (hwrite : ∀ q ∈ s.holders a, (B.encoder.grant q.attr).write = true) : (s.hardware a).write = true := by
  have hpair : (s.holders a).Pairwise Fits := he.filter _
  have hmem : ∀ q ∈ s.holders a, Seated B q ∧ covers B q a = true := fun q hq => (mem_holders.mp hq).2
  unfold hardware
  rw [deciding_eq]
  rcases hl : s.holders a with _ | ⟨x, l⟩
  · rw [hl] at hr
    cases hr
  rw [hl] at hwrite hpair hmem
  cases hrule : B.rule with
  | faults =>
    cases l with
    | nil => exact hwrite x (by simp)
    | cons y l =>
      have hxy := List.rel_of_pairwise_cons hpair (show y ∈ _ by simp)
      obtain ⟨hx1, hx2⟩ := hmem x (by simp)
      obtain ⟨hy1, hy2⟩ := hmem y (by simp)
      exact absurd hrule (hxy.both hx2 hy2 hx1 hy1).1
  | higher =>
    have hlast := List.getLast_mem (List.cons_ne_nil x.attr (l.map Region.attr))
    obtain ⟨y, hy, heq⟩ := List.mem_map.mp (show _ ∈ (x :: l).map Region.attr from hlast)
    have := hwrite y hy
    rw [heq] at this
    exact this
  | lower => exact hwrite x (by simp)
  | union => exact List.any_eq_true.mpr ⟨x.attr, by simp, hwrite x (by simp)⟩

/-! ### The checks -/

theorem byte_mem {k : Nat} (hw : ¬ ptr + len < ptr) (hk : k < len.toNat) :
    (ptr + len).toNat = ptr.toNat + len.toNat ∧ (ptr + BitVec.ofNat B.bits k).toNat = ptr.toNat + k := by
  have hp := ptr.isLt
  have hl := len.isLt
  have hsum : ptr.toNat + len.toNat < 2 ^ B.bits := by
    by_contra hge
    refine hw (BitVec.lt_def.mpr ?_)
    rw [BitVec.toNat_add, Nat.mod_eq_sub_mod (Nat.le_of_not_lt hge), Nat.mod_eq_of_lt (by omega)]
    omega
  refine ⟨by rw [BitVec.toNat_add, Nat.mod_eq_of_lt hsum], ?_⟩
  rw [BitVec.toNat_add, BitVec.toNat_ofNat, Nat.mod_eq_of_lt (by omega : k < 2 ^ B.bits), Nat.mod_eq_of_lt (by omega)]

theorem size_pred (h0 : r.size ≠ 0) : 0 < r.size.toNat ∧ (r.size - 1).toNat = r.size.toNat - 1 := by
  have hs : 0 < r.size.toNat := by
    rcases Nat.eq_zero_or_pos r.size.toNat with h | h
    · exact absurd (BitVec.eq_of_toNat_eq (by simpa using h)) h0
    · exact h
  have hlt := r.size.isLt
  have h1 : (1 : BitVec B.bits).toNat = 1 := Nat.mod_eq_of_lt (by omega : 1 < 2 ^ B.bits)
  refine ⟨hs, ?_⟩
  rw [BitVec.toNat_sub_of_le (BitVec.le_def.mpr (by omega)), h1]

theorem last_toNat (h0 : r.size ≠ 0) (hend : r.base.toNat + r.size.toNat ≤ 2 ^ B.bits) :
    (B.last r).toNat = r.base.toNat + r.size.toNat - 1 := by
  obtain ⟨hs, hsub⟩ := size_pred h0
  unfold Board.last
  rw [BitVec.toNat_add, hsub, Nat.mod_eq_of_lt (by omega)]
  omega

theorem regionAnswers_covers {need : Attr → Bool} {k : Nat} (h : regionAnswers (B := B) ptr (ptr + len) need r = true)
    (hw : ¬ ptr + len < ptr) (hk : k < len.toNat) :
    need r.attr = true ∧ r.attr.dev = false ∧ covers B r (ptr + BitVec.ofNat B.bits k) = true := by
  simp only [regionAnswers, Bool.and_eq_true, Bool.not_eq_true', decide_eq_true_eq] at h
  obtain ⟨⟨⟨⟨hneed, hdev⟩, hwrap⟩, hlo⟩, hhi⟩ := h
  obtain ⟨hfin, hbyte⟩ := byte_mem hw hk
  have hb := r.base.isLt
  have hs := r.size.isLt
  -- a region whose end is not below its base does not reach past the top
  have hend : (r.base + r.size).toNat = r.base.toNat + r.size.toNat := by
    rw [BitVec.le_def, BitVec.toNat_add] at hwrap
    rw [BitVec.toNat_add]
    rcases Nat.lt_or_ge (r.base.toNat + r.size.toNat) (2 ^ B.bits) with hlt | hge
    · exact Nat.mod_eq_of_lt hlt
    · rw [Nat.mod_eq_sub_mod hge, Nat.mod_eq_of_lt (by omega)] at hwrap
      omega
  rw [BitVec.le_def] at hlo hhi
  have hlt := (r.base + r.size).isLt
  have h0 : r.size ≠ 0 := by
    intro h
    have : r.size.toNat = 0 := by rw [h]; simp
    omega
  refine ⟨hneed, hdev, covers_iff.mpr ⟨h0, ?_, ?_⟩⟩
  · rw [BitVec.le_def]
    omega
  · rw [BitVec.le_def, last_toNat h0 (by omega)]
    omega

/-- Where no region without the right to write ends at the top, the checks see every one that holds a byte. -/
theorem readOnlyOverlaps_of_covers {k : Nat} (hq : q ∈ s.regions) (hw : q.attr.w = false)
    (htop : q.base.toNat + q.size.toNat ≠ 2 ^ B.bits) (hwrap : ¬ ptr + len < ptr) (hk : k < len.toNat)
    (hc : covers B q (ptr + BitVec.ofNat B.bits k) = true) : s.readOnlyOverlaps ptr (ptr + len) = true := by
  obtain ⟨h0, hlo, hhi⟩ := covers_iff.mp hc
  obtain ⟨hfin, hbyte⟩ := byte_mem hwrap hk
  have hb := q.base.isLt
  have hs := q.size.isLt
  rw [BitVec.le_def] at hlo
  obtain ⟨hpos, hsub⟩ := size_pred h0
  -- a descriptor that wraps holds no byte
  have hend : q.base.toNat + q.size.toNat < 2 ^ B.bits := by
    rcases Nat.lt_trichotomy (q.base.toNat + q.size.toNat) (2 ^ B.bits) with h | h | h
    · exact h
    · exact absurd h htop
    · have hle : (ptr + BitVec.ofNat B.bits k).toNat ≤ (B.last q).toNat := BitVec.le_def.mp hhi
      unfold Board.last at hle
      rw [BitVec.toNat_add q.base, hsub, Nat.mod_eq_sub_mod (by omega), Nat.mod_eq_of_lt (by omega)] at hle
      omega
  have hle := BitVec.le_def.mp hhi
  rw [last_toNat h0 hend.le] at hle
  refine List.any_eq_true.mpr ⟨q, hq, ?_⟩
  simp only [hw, Bool.not_false, Bool.true_and, Bool.and_eq_true, decide_eq_true_eq, BitVec.lt_def]
  refine ⟨?_, ?_⟩
  · rw [BitVec.toNat_add, Nat.mod_eq_of_lt hend]
    omega
  · omega

/-! ### Sets the checks answer for -/

/-- Every byte of a range the kernel admits is one the thread can reach itself. -/
def Deputy (s : MpuSet B) : Prop :=
  ∀ ptr len, (s.userReadableOk ptr len = true →
      ∀ k < len.toNat, (s.hardware (ptr + BitVec.ofNat B.bits k)).read = true) ∧
    (s.userWritableOk ptr len = true → ∀ k < len.toNat, (s.hardware (ptr + BitVec.ofNat B.bits k)).write = true)

/-- What is asked of one region: a descriptor unless it is a device's; if it cannot be written, an end below the top of
the address space; and not both to be written and to be code, where code is programmed read-only. -/
structure Proper (r : Region B.bits) : Prop where
  seated : r.attr.dev = false → Seated B r
  below : r.attr.w = false → r.base.toNat + r.size.toNat ≠ 2 ^ B.bits
  plain : B.encoder = .code → r.attr.x = true → r.attr.w = false

theorem Proper.grant_write (h : Proper r) (hw : r.attr.w = true) : (B.encoder.grant r.attr).write = true := by
  cases he : B.encoder with
  | code =>
    have hx : r.attr.x = false := by
      by_contra hx
      rw [h.plain he (by simpa using hx)] at hw
      cases hw
    simp [Encoder.grant, hw, hx]
  | readable => exact hw
  | literal => exact hw

/-- An expressible set of proper regions. -/
structure Sound (s : MpuSet B) : Prop where
  expressible : s.overlapsExpressible = true
  proper : ∀ r ∈ s.regions, Proper r

theorem Sound.read (h : Sound s) (hok : s.userReadableOk ptr len = true) {k : Nat} (hk : k < len.toNat) :
    (s.hardware (ptr + BitVec.ofNat B.bits k)).read = true := by
  have he := overlapsExpressible_iff.mp h.expressible
  have hlen : len ≠ 0 := by
    rintro rfl
    simp at hk
  unfold userReadableOk at hok
  simp only [hlen, if_false] at hok
  split_ifs at hok with hwrap
  rw [Bool.or_eq_true] at hok
  rcases hok with hok | hok
  · obtain ⟨r, hr, ha⟩ := List.any_eq_true.mp hok
    obtain ⟨hneed, hdev, hc⟩ := regionAnswers_covers ha hwrap hk
    exact hardware_read he (mem_holders.mpr ⟨hr, (h.proper r hr).seated hdev, hc⟩) (.inl hneed)
  · -- the code held apart decides, unless a region of the set lies over it, which the unit then lets be read
    unfold codeWindowHolds at hok
    rcases hwin : B.codeWindow with _ | ⟨lo, hi⟩
    · simp [hwin] at hok
    · simp only [hwin, Bool.and_eq_true, decide_eq_true_eq, BitVec.le_def] at hok
      obtain ⟨⟨-, hlo⟩, hhi⟩ := hok
      obtain ⟨hfin, hbyte⟩ := byte_mem hwrap hk
      have hin : lo ≤ ptr + BitVec.ofNat B.bits k ∧ ptr + BitVec.ofNat B.bits k < hi := by
        rw [BitVec.le_def, BitVec.lt_def]
        omega
      rcases hl : s.holders (ptr + BitVec.ofNat B.bits k) with _ | ⟨q, l⟩
      · unfold hardware
        rw [deciding_eq, hl, hwin]
        simpa using hin
      · have hq : q ∈ s.holders (ptr + BitVec.ofNat B.bits k) := by simp [hl]
        exact hardware_read he hq (.inr (B.window_readable.resolve_left (by simp [hwin])))

theorem Sound.write (h : Sound s) (hok : s.userWritableOk ptr len = true) {k : Nat} (hk : k < len.toNat) :
    (s.hardware (ptr + BitVec.ofNat B.bits k)).write = true := by
  have he := overlapsExpressible_iff.mp h.expressible
  have hlen : len ≠ 0 := by
    rintro rfl
    simp at hk
  unfold userWritableOk at hok
  simp only [hlen, if_false] at hok
  split_ifs at hok with hwrap hro
  obtain ⟨r, hr, ha⟩ := List.any_eq_true.mp hok
  obtain ⟨-, hdev, hc⟩ := regionAnswers_covers ha hwrap hk
  refine hardware_write he (mem_holders.mpr ⟨hr, (h.proper r hr).seated hdev, hc⟩) fun q hq => ?_
  obtain ⟨hqm, -, hqc⟩ := mem_holders.mp hq
  refine (h.proper q hqm).grant_write ?_
  by_contra hn
  have hw : q.attr.w = false := Bool.not_eq_true _ ▸ hn
  exact hro (readOnlyOverlaps_of_covers hqm hw ((h.proper q hqm).below hw) hwrap hk hqc)

theorem Sound.deputy (h : Sound s) : Deputy s := fun _ _ => ⟨fun hok _ hk => h.read hok hk, fun hok _ hk => h.write hok hk⟩

/-! ### Additions -/

theorem find_some (h : s.find base size = some i) :
    ∃ hi : i < s.regions.length, s.regions[i].base = base ∧ s.regions[i].size = size := by
  obtain ⟨hi, hp, -⟩ := List.findIdx?_eq_some_iff_getElem.mp h
  exact ⟨hi, by simpa using hp⟩

theorem add_eq (h : (s.add base size attr).2 = true) :
    (s.add base size attr).1.regions = s.regions ++ [⟨base, size, attr⟩] := by
  unfold add at h ⊢
  split_ifs at h ⊢
  rfl

theorem addEnforced_true (h : (s.addEnforced base size attr).2 = true) :
    (s.addEnforced base size attr).1.regions = s.regions ++ [⟨base, size, attr⟩] ∧ Seated B ⟨base, size, attr⟩ := by
  unfold addEnforced at h ⊢
  rcases hadd : s.add base size attr with ⟨t, _ | _⟩
  · simp [hadd] at h
  · simp only [hadd] at h ⊢
    have ht : t.regions = s.regions ++ [⟨base, size, attr⟩] := by
      have := add_eq (show (s.add base size attr).2 = true by rw [hadd])
      rwa [hadd] at this
    split_ifs at h ⊢ with hs
    refine ⟨ht, ?_⟩
    have hlen : t.regions.length - 1 < t.regions.length := by simp [ht]
    rw [seated_eq hlen] at hs
    simpa [Seated, ht] using hs

theorem ext_regions {t : MpuSet B} (h : t.regions = s.regions) : t = s := by
  obtain ⟨regions, image, rfl, fits⟩ := s
  obtain ⟨regions', image', rfl, fits'⟩ := t
  cases h
  rfl

theorem addEnforced_false (h : (s.addEnforced base size attr).2 = false) : (s.addEnforced base size attr).1 = s := by
  unfold addEnforced at h ⊢
  rcases hadd : s.add base size attr with ⟨t, _ | _⟩
  · rfl
  · simp only [hadd] at h ⊢
    have ht : t.regions = s.regions ++ [⟨base, size, attr⟩] := by
      have := add_eq (show (s.add base size attr).2 = true by rw [hadd])
      rwa [hadd] at this
    split_ifs at h ⊢
    exact ext_regions (by simp [drop, ofRegions, ht])

theorem addEnforcedRetyping_false (h : (s.addEnforcedRetyping base size attr).2 = false) :
    (s.addEnforcedRetyping base size attr).1 = s := by
  unfold addEnforcedRetyping at h ⊢
  rcases hf : s.find base size with _ | i
  · simp only [hf] at h ⊢
    exact addEnforced_false h
  · obtain ⟨hi, -, -⟩ := find_some hf
    simp only [hf] at h ⊢
    split_ifs at h ⊢
    refine ext_regions (List.ext_getElem (by simp [retype, ofRegions]) fun j h1 h2 => ?_)
    rcases eq_or_ne i j with rfl | hij
    · simp [retype, ofRegions, List.getD_eq_getElem?_getD, hi]
    · simp [retype, ofRegions, hij]

/-- The regions of an accepted addition, one at the slot asked about and the others as they were. -/
theorem addEnforcedRetyping_true (h : (s.addEnforcedRetyping base size attr).2 = true) :
    Seated B ⟨base, size, attr⟩ ∧ ∀ j (hj : j < (s.addEnforcedRetyping base size attr).1.regions.length),
      (j = (s.find base size).getD s.regions.length ∧
        (s.addEnforcedRetyping base size attr).1.regions[j] = ⟨base, size, attr⟩) ∨
      (j ≠ (s.find base size).getD s.regions.length ∧
        ∃ hs : j < s.regions.length, (s.addEnforcedRetyping base size attr).1.regions[j] = s.regions[j]) := by
  rcases hf : s.find base size with _ | i
  · have heq : s.addEnforcedRetyping base size attr = s.addEnforced base size attr := by
      simp [addEnforcedRetyping, hf]
    rw [heq] at h ⊢
    obtain ⟨hreg, hseat⟩ := addEnforced_true h
    refine ⟨hseat, fun j hj => ?_⟩
    simp only [hreg, List.length_append, List.length_singleton] at hj
    simp only [hreg, Option.getD_none]
    rcases Nat.lt_or_ge j s.regions.length with hlt | hge
    · exact .inr ⟨hlt.ne, hlt, List.getElem_append_left hlt⟩
    · have hj' : j = s.regions.length := by omega
      subst hj'
      exact .inl ⟨rfl, by simp⟩
  · obtain ⟨hi, hb, hs⟩ := find_some hf
    have heq : s.addEnforcedRetyping base size attr =
        (if (s.retype i attr).seated i then (s.retype i attr, true)
          else ((s.retype i attr).retype i (s.regions.getD i ⟨0, 0, {}⟩).attr, false)) := by
      simp [addEnforcedRetyping, hf]
    rw [heq] at h ⊢
    split_ifs at h ⊢ with hseat
    have hi' : i < (s.retype i attr).regions.length := by simpa [retype, ofRegions] using hi
    rw [seated_eq hi'] at hseat
    refine ⟨?_, fun j hj => ?_⟩
    · simpa [Seated, retype, ofRegions, List.getElem_modify, hb, hs] using hseat
    · rcases eq_or_ne i j with rfl | hij
      · exact .inl ⟨rfl, by simp [retype, ofRegions, hb, hs]⟩
      · refine .inr ⟨hij.symm, by simpa [retype, ofRegions] using hj, ?_⟩
        simp [retype, ofRegions, hij]

theorem Sound.addEnforcedRetyping (h : Sound s) (hp : Proper (⟨base, size, attr⟩ : Region B.bits))
    (hx : s.retypingExpressible base size attr = true) (hok : (s.addEnforcedRetyping base size attr).2 = true) :
    Sound (s.addEnforcedRetyping base size attr).1 := by
  obtain ⟨hseat, hreg⟩ := addEnforcedRetyping_true hok
  have hadm := admits_iff.mp hx
  have he := List.pairwise_iff_getElem.mp (overlapsExpressible_iff.mp h.expressible)
  have hseat' : B.encodable base size = true := hseat
  refine ⟨overlapsExpressible_iff.mpr (List.pairwise_iff_getElem.mpr fun i j hi hj hij => ?_), fun r hr => ?_⟩
  · rcases hreg i hi with ⟨hia, hi'⟩ | ⟨-, his, hi'⟩
    · rcases hreg j hj with ⟨hja, -⟩ | ⟨-, hjs, hj'⟩
      · exact absurd (hia.trans hja.symm) hij.ne
      · rw [hi', hj', Fits, hseat']
        exact (hadm j hjs).2 (hia ▸ hij)
    · rcases hreg j hj with ⟨hja, hj'⟩ | ⟨-, hjs, hj'⟩
      · rw [hi', hj', Fits, hseat']
        exact (hadm i his).1 (hja ▸ hij)
      · rw [hi', hj']
        exact he i j his hjs hij
  · obtain ⟨j, hj, rfl⟩ := List.getElem_of_mem hr
    rcases hreg j hj with ⟨-, hj'⟩ | ⟨-, hjs, hj'⟩
    · rw [hj']
      exact hp
    · rw [hj']
      exact h.proper _ (List.getElem_mem hjs)

/-- The kernel is no confused deputy: for every rule of overlaps, what the checks admit of a sound set the thread can
reach itself; an accepted addition keeps the set sound, and a refused one changes nothing. -/
theorem no_confused_deputy (B : Board) :
    (∀ s : MpuSet B, Sound s → Deputy s) ∧
    (∀ (s : MpuSet B) (base size : BitVec B.bits) (attr : Attr), Sound s → Proper (⟨base, size, attr⟩ : Region B.bits) →
      s.retypingExpressible base size attr = true → (s.addEnforcedRetyping base size attr).2 = true →
      Sound (s.addEnforcedRetyping base size attr).1 ∧ Deputy (s.addEnforcedRetyping base size attr).1) ∧
    (∀ (s : MpuSet B) (base size : BitVec B.bits) (attr : Attr), (s.addEnforcedRetyping base size attr).2 = false →
      (s.addEnforcedRetyping base size attr).1 = s ∧
      ∀ ptr len, (s.addEnforcedRetyping base size attr).1.userReadableOk ptr len = s.userReadableOk ptr len ∧
        (s.addEnforcedRetyping base size attr).1.userWritableOk ptr len = s.userWritableOk ptr len) := by
  refine ⟨fun s h => h.deputy, fun s base size attr h hp hx hok => ?_, fun s base size attr h => ?_⟩
  · have h' := h.addEnforcedRetyping hp hx hok
    exact ⟨h', h'.deputy⟩
  · have heq := addEnforcedRetyping_false h
    exact ⟨heq, fun ptr len => by rw [heq]; exact ⟨rfl, rfl⟩⟩

/-- PMSAv7 with its least region of 32 bytes: the higher slot decides, and a region is a power of two at its own
alignment. -/
def pmsav7 : Board where
  bits := 32
  rule := .higher
  maxRegions := 8
  encodable base size := decide (32 ≤ size) && (size &&& (size - 1) == 0) && (base &&& (size - 1) == 0)
  encoder := .code
  window_readable := .inl rfl

def stacked : MpuSet pmsav7 := (clear.add 0x20000000 0x400 { r := true, w := true }).1

theorem no_confused_deputy_stacked :
    (stacked.addEnforcedRetyping 0x20000000 0x400 { r := true }).1.userReadableOk 0x20000010 4 = true ∧
    Deputy (stacked.addEnforcedRetyping 0x20000000 0x400 { r := true }).1 := by
  have hsound : Sound stacked := by
    refine ⟨by decide, fun r hr => ?_⟩
    rw [show stacked.regions = [⟨0x20000000, 0x400, { r := true, w := true }⟩] from rfl, List.mem_singleton] at hr
    subst hr
    exact ⟨fun _ => rfl, fun h => absurd h (by decide), fun _ h => absurd h (by decide)⟩
  obtain ⟨-, hadd, -⟩ := no_confused_deputy pmsav7
  exact ⟨by decide, (hadd stacked 0x20000000 0x400 { r := true } hsound
    ⟨fun _ => rfl, fun _ => by decide, fun _ _ => rfl⟩ (by decide) (by decide)).2⟩

/-! ### Three sets that are not sound -/

/-- A block of three kilobytes has no descriptor, and is carried all the same. -/
def unseated : MpuSet pmsav7 := (clear.add 0x20000000 0xC00 { r := true, w := true }).1

/-- A writable block under a read-only window that ends with the address space. -/
def topmost : MpuSet pmsav7 :=
  ((clear.add 0xFFFFF000 0x800 { r := true, w := true }).1.add 0xFFFFF000 0x1000 { r := true }).1

/-- A block that is to be written and to be code. -/
def writableCode : MpuSet pmsav7 := (clear.add 0x20000000 0x400 { r := true, w := true, x := true }).1

/-- A region without a descriptor is admitted by the checks and out of the thread's own reach; and so, for writing, are
a block under a read-only window the check of overlaps does not see, and a writable block that is code, which the unit
has read-only. -/
theorem deputy_confused :
    (unseated.overlapsExpressible = true ∧ unseated.userReadableOk 0x20000000 4 = true ∧
      (unseated.hardware 0x20000000).read = false) ∧
    (topmost.overlapsExpressible = true ∧ (∀ r ∈ topmost.regions, Seated pmsav7 r) ∧
      topmost.userWritableOk 0xFFFFF000 4 = true ∧ (topmost.hardware 0xFFFFF000).write = false) ∧
    (writableCode.overlapsExpressible = true ∧ (∀ r ∈ writableCode.regions, Seated pmsav7 r) ∧
      writableCode.userWritableOk 0x20000000 4 = true ∧ (writableCode.hardware 0x20000000).write = false) := by
  refine ⟨⟨by decide, by decide, by decide⟩, ⟨by decide, ?_, by decide, by decide⟩, by decide, ?_, by decide, by decide⟩
  · intro r hr
    simp only [topmost, add, clear, ofRegions] at hr
    fin_cases hr <;> rfl
  · intro r hr
    simp only [writableCode, add, clear, ofRegions] at hr
    fin_cases hr
    rfl

end MpuSet
end Mpu
end KickOS
