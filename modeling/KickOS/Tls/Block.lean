import KickOS.Tls.Model

/-! The block of one thread: its table stays what the calls have made it, and its bump pointer hands out every byte
once, whatever the control blocks say. -/

namespace KickOS.Tls

open Lib.Buffer
open Function (update update_of_ne update_self)

section Words

variable {mem mem' : Mem} {a b v : Nat}

theorem clear_two_pow (x k : Nat) : clear x (2 ^ k - 1) = x / 2 ^ k * 2 ^ k := by
  have hdiv := Nat.div_add_mod x (2 ^ k)
  rw [Nat.mul_comm] at hdiv
  rw [clear, Nat.and_two_pow_sub_one_eq_mod]
  omega

theorem align_cases (h0 : a ≠ 0) (h8 : a ≤ payloadAlign) (hpow : a &&& (a - 1) = 0) : ∃ k, k ≤ 3 ∧ a = 2 ^ k := by
  unfold payloadAlign at h8
  interval_cases a
  · exact absurd rfl h0
  · exact ⟨0, by omega, rfl⟩
  · exact ⟨1, by omega, rfl⟩
  · exact absurd hpow (by decide)
  · exact ⟨2, by omega, rfl⟩
  · exact absurd hpow (by decide)
  · exact absurd hpow (by decide)
  · exact absurd hpow (by decide)
  · exact ⟨3, by omega, rfl⟩

theorem alignUp_spec (v k : Nat) : v ≤ alignUp v (2 ^ k) ∧ 2 ^ k ∣ alignUp v (2 ^ k) := by
  have hpos : 0 < 2 ^ k := Nat.two_pow_pos k
  rw [alignUp, clear_two_pow]
  refine ⟨?_, Dvd.intro_left _ rfl⟩
  have hdiv := Nat.div_add_mod (v + (2 ^ k - 1)) (2 ^ k)
  have hmod := Nat.mod_lt (v + (2 ^ k - 1)) hpos
  rw [Nat.mul_comm] at hdiv
  omega

theorem store16_sameOutside (mem : Mem) (a v : Nat) : SameOutside mem (store16 mem a v) a (a + 2) := (putAll_spec mem a _).2

theorem load16_congr (h0 : mem' a = mem a) (h1 : mem' (a + 1) = mem (a + 1)) : load16 mem' a = load16 mem a := by
  rw [load16, load16, h0, h1]

theorem load16_same {lo hi : Nat} (h : SameOutside mem mem' lo hi) (ha : a + 2 ≤ lo ∨ hi ≤ a) : load16 mem' a = load16 mem a :=
  load16_congr (h a (by omega)) (h (a + 1) (by omega))

theorem load16_store16 (hv : v < 2 ^ 16) : load16 (store16 mem a v) a = v := by
  obtain ⟨hlo, hhi, -⟩ := (putAll_spec mem a [BitVec.ofNat 8 v, BitVec.ofNat 8 (v / 256)]).1
  rw [load16, store16, hlo, hhi, BitVec.toNat_ofNat, BitVec.toNat_ofNat]
  omega

end Words

namespace Image

variable {im : Image} {th th' sp anchor index : Nat}

theorem tpOf_eq (hlo : th * im.stride < sp) (hhi : sp ≤ (th + 1) * im.stride) : im.tpOf sp = im.tp th := by
  have hdiv : (sp - 1) / im.stride = th := by
    refine Nat.div_eq_of_lt_le ?_ ?_
    · omega
    · omega
  rw [tpOf, tp, stride, clear_two_pow]
  rw [stride] at hdiv
  rw [hdiv]

theorem slots_eq (im : Image) : (im.vend - im.vstart) / objectBytes = im.nslots := by
  unfold vend objectBytes
  omega

theorem table_le (im : Image) : headerBytes + 2 * im.nslots ≤ im.dataStart := by
  rw [dataStart, slots_eq]
  exact (alignUp_spec _ 3).1

theorem dataStart_pos (im : Image) : 0 < im.dataStart := by
  have := im.table_le
  unfold headerBytes at this
  omega

theorem index_lt (h : im.indexOf anchor = some index) : index < im.nslots := by
  unfold indexOf at h
  split_ifs at h with h1 h2
  cases h
  unfold vend objectBytes at *
  omega

theorem blocks_apart (im : Image) (hne : th ≠ th') : im.tp th + blockBytes ≤ im.tp th' ∨ im.tp th' + blockBytes ≤ im.tp th := by
  have hfits : im.reentCarve + blockBytes < im.stride := im.carve_fits
  unfold tp
  obtain hlt | hgt := Nat.lt_or_gt_of_ne hne
  · have := Nat.mul_le_mul_right im.stride hlt
    rw [Nat.succ_mul] at this
    omega
  · have := Nat.mul_le_mul_right im.stride hgt
    rw [Nat.succ_mul] at this
    omega

theorem align_dvd_tp (im : Image) (th : Nat) {k : Nat} (hk : k ≤ 3) : 2 ^ k ∣ im.tp th := by
  have h8 : 2 ^ k ∣ payloadAlign := pow_dvd_pow 2 hk
  have hstride : 2 ^ k ∣ im.stride := pow_dvd_pow 2 (hk.trans im.stride_large)
  exact dvd_add (hstride.mul_left th) (h8.trans im.carve_aligned)

end Image

/-- What holds of the block of a thread, by what the thread has of each object. -/
structure BlockOk (im : Image) (mem : Mem) (tp : Nat) (h : Nat → Option Extent) : Prop where
  brk : (load16 mem tp = 0 ∧ ∀ i, h i = none) ∨
    (im.dataStart ≤ load16 mem tp ∧ load16 mem tp ≤ blockBytes ∧ ∀ i e, h i = some e → e.off + e.object.size ≤ load16 mem tp)
  free : ∀ i, i < im.nslots → h i = none → load16 mem (tp + headerBytes + 2 * i) = 0
  cached : ∀ i e, h i = some e → load16 mem (tp + headerBytes + 2 * i) = e.off
  inside : ∀ i e, h i = some e → i < im.nslots ∧ im.dataStart ≤ e.off ∧ 0 < e.object.size ∧ e.off + e.object.size ≤ blockBytes
  aligned : ∀ i e, h i = some e → ∃ k, k ≤ 3 ∧ e.object.align = 2 ^ k ∧ 2 ^ k ∣ e.off
  apart : ∀ i j e e', i ≠ j → h i = some e → h j = some e' →
    e.off + e.object.size ≤ e'.off ∨ e'.off + e'.object.size ≤ e.off

namespace BlockOk

variable {im : Image} {mem mem' : Mem} {tp : Nat} {h : Nat → Option Extent}

theorem frame (hb : BlockOk im mem tp h) (hm : ∀ k, k < im.dataStart → mem' (tp + k) = mem (tp + k)) : BlockOk im mem' tp h := by
  have htable := im.table_le
  unfold headerBytes at *
  have hbrk : load16 mem' tp = load16 mem tp := load16_congr (hm 0 im.dataStart_pos) (hm 1 (by omega))
  have hslot : ∀ i, i < im.nslots → load16 mem' (tp + 4 + 2 * i) = load16 mem (tp + 4 + 2 * i) := by
    intro i hi
    have h0 := hm (4 + 2 * i) (by omega)
    have h1 := hm (4 + 2 * i + 1) (by omega)
    simp only [← Nat.add_assoc] at h0 h1
    exact load16_congr h0 h1
  refine ⟨by rw [hbrk]; exact hb.brk, ?_, ?_, hb.inside, hb.aligned, hb.apart⟩
  · intro i hi hn
    rw [headerBytes, hslot i hi]
    exact hb.free i hi hn
  · intro i e he
    rw [headerBytes, hslot i (hb.inside i e he).1]
    exact hb.cached i e he

/-- The bump pointer of a block that has been used. -/
def Open (im : Image) (mem : Mem) (tp : Nat) (h : Nat → Option Extent) : Prop :=
  im.dataStart ≤ load16 mem tp ∧ load16 mem tp ≤ blockBytes ∧ ∀ i e, h i = some e → e.off + e.object.size ≤ load16 mem tp

theorem openBrk (hb : BlockOk im mem tp h) (hroom : im.dataStart < blockBytes) :
    ∃ mem', im.openBrk mem tp = some mem' ∧ BlockOk im mem' tp h ∧ Open im mem' tp h ∧ SameOutside mem mem' tp (tp + 2) := by
  unfold Image.openBrk
  obtain ⟨hzero, hnone⟩ | ⟨hlo, hhi, hall⟩ := hb.brk
  · have hsame := store16_sameOutside mem tp im.dataStart
    have hload : load16 (store16 mem tp im.dataStart) tp = im.dataStart := load16_store16 (by unfold blockBytes at hroom; omega)
    have hopen : Open im (store16 mem tp im.dataStart) tp h := by
      refine ⟨hload.ge, by rw [hload]; exact hroom.le, fun i e he => ?_⟩
      rw [hnone i] at he
      cases he
    refine ⟨_, if_pos hzero, ⟨.inr hopen, ?_, ?_, hb.inside, hb.aligned, hb.apart⟩, hopen, hsame⟩
    · intro i hi hn
      rw [load16_same hsame (.inr (by unfold headerBytes; omega))]
      exact hb.free i hi hn
    · intro i e he
      rw [hnone i] at he
      cases he
  · have hpos := im.dataStart_pos
    refine ⟨mem, ?_, hb, ⟨hlo, hhi, hall⟩, sameOutside_refl⟩
    rw [if_neg (by omega), if_neg (by omega)]

/-- The bytes a first access leaves in the object. -/
def template (im : Image) (o : EmutlsObject) : List (BitVec 8) :=
  match o.templ with
  | none => List.replicate o.size 0
  | some t => slice im.code t o.size

theorem template_length (im : Image) (o : EmutlsObject) : (template im o).length = o.size := by
  unfold template
  cases o.templ with
  | none => exact List.length_replicate
  | some t => exact length_slice

theorem allocate_cases {index : Nat} {seen : EmutlsObject} {r : Mem × Nat} (ha : im.allocate mem tp index seen = some r) :
    0 < seen.size ∧ (∃ k, k ≤ 3 ∧ seen.align = 2 ^ k) ∧ r.2 = alignUp (load16 mem tp) seen.align ∧ r.2 + seen.size ≤ blockBytes ∧
    r.1 = putAll (store16 (store16 mem tp (r.2 + seen.size)) (tp + headerBytes + 2 * index) r.2) (tp + r.2)
      (template im seen) := by
  unfold Image.allocate at ha
  simp only at ha
  split at ha
  · cases ha
  next hsize =>
    split at ha
    · cases ha
    next halign =>
      split at ha
      · cases ha
      next hfit =>
        push Not at hsize halign hfit
        have hk := align_cases halign.1 halign.2.1 halign.2.2
        have hle : alignUp (load16 mem tp) seen.align + seen.size ≤ blockBytes := by omega
        unfold template
        cases htempl : seen.templ with
        | none =>
          rw [htempl] at ha
          cases ha
          exact ⟨Nat.pos_of_ne_zero hsize.1, hk, rfl, hle, rfl⟩
        | some t =>
          rw [htempl] at ha
          simp only at ha
          split_ifs at ha
          cases ha
          exact ⟨Nat.pos_of_ne_zero hsize.1, hk, rfl, hle, rfl⟩

theorem allocate {index : Nat} {seen : EmutlsObject} {r : Mem × Nat} (hb : BlockOk im mem tp h)
    (hopen : Open im mem tp h) (hi : index < im.nslots) (hn : h index = none)
    (ha : im.allocate mem tp index seen = some r) : BlockOk im r.1 tp (update h index (some ⟨r.2, seen⟩)) ∧
    SameOutside mem r.1 tp (tp + blockBytes) ∧ Stands r.1 (tp + r.2) (template im seen) := by
  obtain ⟨hpos, ⟨k, hk, halign⟩, hoff, hfit, hmem⟩ := allocate_cases ha
  obtain ⟨hlo, hhi, hbelow⟩ := hopen
  have htable := im.table_le
  have hup := alignUp_spec (load16 mem tp) k
  rw [← halign, ← hoff] at hup
  unfold headerBytes blockBytes at *
  -- the three writes: the bump pointer, the entry of the table, and the object behind the table
  obtain ⟨off, hr⟩ : ∃ off, off = r.2 := ⟨_, rfl⟩
  obtain ⟨m1, hm1⟩ : ∃ m1, m1 = store16 mem tp (off + seen.size) := ⟨_, rfl⟩
  obtain ⟨m2, hm2⟩ : ∃ m2, m2 = store16 m1 (tp + 4 + 2 * index) off := ⟨_, rfl⟩
  rw [← hr] at hfit hup hmem ⊢
  rw [← hm1, ← hm2] at hmem
  have hs1 : SameOutside mem m1 tp (tp + 2) := hm1 ▸ store16_sameOutside mem tp _
  have hs2 : SameOutside m1 m2 (tp + 4 + 2 * index) (tp + 4 + 2 * index + 2) := hm2 ▸ store16_sameOutside m1 _ off
  obtain ⟨hstands, hs3⟩ := putAll_spec m2 (tp + off) (template im seen)
  rw [← hmem] at hstands hs3
  rw [template_length] at hs3
  have hbrk : load16 r.1 tp = off + seen.size := by
    rw [load16_same hs3 (.inl (by omega)), load16_same hs2 (.inl (by omega)), hm1, load16_store16 (by omega)]
  have hown : load16 r.1 (tp + 4 + 2 * index) = off := by
    rw [load16_same hs3 (.inl (by omega)), hm2, load16_store16 (by omega)]
  have hother : ∀ i, i < im.nslots → i ≠ index → load16 r.1 (tp + 4 + 2 * i) = load16 mem (tp + 4 + 2 * i) := by
    intro i hlt hne
    rw [load16_same hs3 (.inl (by omega)), load16_same hs2 (by omega), load16_same hs1 (.inr (by omega))]
  refine ⟨⟨.inr ⟨by omega, by unfold blockBytes; omega, ?_⟩, ?_, ?_, ?_, ?_, ?_⟩, ?_, hstands⟩
  · intro i e he
    obtain rfl | hne := eq_or_ne i index
    · rw [update_self, Option.some.injEq] at he
      subst he
      exact hbrk.ge
    · rw [update_of_ne hne] at he
      have := hbelow i e he
      omega
  · intro i hlt hnone
    obtain rfl | hne := eq_or_ne i index
    · rw [update_self] at hnone
      cases hnone
    · rw [update_of_ne hne] at hnone
      rw [headerBytes, hother i hlt hne]
      exact hb.free i hlt hnone
  · intro i e he
    obtain rfl | hne := eq_or_ne i index
    · rw [update_self, Option.some.injEq] at he
      subst he
      exact hown
    · rw [update_of_ne hne] at he
      rw [headerBytes, hother i (hb.inside i e he).1 hne]
      exact hb.cached i e he
  · intro i e he
    obtain rfl | hne := eq_or_ne i index
    · rw [update_self, Option.some.injEq] at he
      subst he
      exact ⟨hi, by simp only; omega, hpos, hfit⟩
    · rw [update_of_ne hne] at he
      exact hb.inside i e he
  · intro i e he
    obtain rfl | hne := eq_or_ne i index
    · rw [update_self, Option.some.injEq] at he
      subst he
      exact ⟨k, hk, halign, halign ▸ hup.2⟩
    · rw [update_of_ne hne] at he
      exact hb.aligned i e he
  · intro i j e e' hij he he'
    obtain rfl | hne := eq_or_ne i index
    · rw [update_self, Option.some.injEq] at he
      rw [update_of_ne hij.symm] at he'
      subst he
      have := hbelow j e' he'
      exact .inr (by simp only; omega)
    · rw [update_of_ne hne] at he
      obtain rfl | hne' := eq_or_ne j index
      · rw [update_self, Option.some.injEq] at he'
        subst he'
        have := hbelow i e he
        exact .inl (by simp only; omega)
      · rw [update_of_ne hne'] at he'
        exact hb.apart i j e e' hij he he'
  · exact ((hs1.mono le_rfl (by omega)).trans (hs2.mono (by omega) (by omega))).trans (hs3.mono (by omega) (by omega))

/-- A call: it answers what the thread has of the object, and hands it out before where it has nothing. -/
theorem getAddress {th anchor sp index : Nat} {seen : EmutlsObject} {r : Mem × Nat} (hb : BlockOk im mem (im.tp th) h)
    (hlo : th * im.stride < sp) (hhi : sp ≤ (th + 1) * im.stride) (hidx : im.indexOf anchor = some index)
    (hr : im.getAddress mem anchor sp seen = some r) :
    SameOutside mem r.1 (im.tp th) (im.tp th + blockBytes) ∧
    ((∃ e, h index = some e ∧ r.2 = e.off ∧ BlockOk im r.1 (im.tp th) h) ∨
      (h index = none ∧ BlockOk im r.1 (im.tp th) (update h index (some ⟨r.2, seen⟩)) ∧
        Stands r.1 (im.tp th + r.2) (template im seen))) := by
  have hi := Image.index_lt hidx
  rw [Image.getAddress, hidx, Image.tpOf_eq hlo hhi] at hr
  simp only at hr
  split at hr
  · cases hr
  split at hr
  · cases hr
  next hroom =>
    obtain ⟨mem', hopen, hb', hO, hsame⟩ := hb.openBrk (not_le.mp hroom)
    rw [hopen] at hr
    simp only at hr
    have hsame : SameOutside mem mem' (im.tp th) (im.tp th + blockBytes) := hsame.mono le_rfl (by unfold blockBytes; omega)
    split at hr
    next hcached =>
      split at hr
      · cases hr
      · cases hr
        refine ⟨hsame, .inl ?_⟩
        cases he : h index with
        | none => exact absurd (hb'.free index hi he) hcached
        | some e => exact ⟨e, rfl, hb'.cached index e he, hb'⟩
    next hcached =>
      have hnone : h index = none := by
        cases he : h index with
        | none => rfl
        | some e =>
          have hzero := not_not.mp hcached
          have hpos := im.dataStart_pos
          have hin := (hb'.inside index e he).2.1
          rw [hb'.cached index e he] at hzero
          omega
      obtain ⟨hb'', hout, hstands⟩ := hb'.allocate hO hi hnone hr
      exact ⟨hsame.trans hout, .inr ⟨hnone, hb'', hstands⟩⟩

end BlockOk

section Seat

variable {im : Image}

theorem load16_replicate (mem : Mem) (tp : Nat) {n k : Nat} (hk : k + 2 ≤ n) :
    load16 (putAll mem tp (List.replicate n 0)) (tp + k) = 0 := by
  have hbyte : ∀ j, j < n → putAll mem tp (List.replicate n 0) (tp + j) = 0 := by
    intro j hj
    have hget := (putAll_spec mem tp (List.replicate n 0)).1.getElem (by rwa [List.length_replicate])
    rwa [List.getElem_replicate] at hget
  rw [load16, hbyte k (by omega), Nat.add_assoc, hbyte (k + 1) (by omega)]
  rfl

theorem load16_tlsSeat (mem : Mem) (tp : Nat) {k : Nat} (hk : k + 2 ≤ blockBytes) : load16 (tlsSeat mem tp) (tp + k) = 0 :=
  load16_replicate mem tp hk

theorem tlsSeat_sameOutside (mem : Mem) (tp : Nat) : SameOutside mem (tlsSeat mem tp) tp (tp + blockBytes) := by
  have hout := (putAll_spec mem tp (List.replicate blockBytes 0)).2
  rwa [List.length_replicate] at hout

theorem blockOk_tlsSeat (mem : Mem) (th : Nat) (hroom : im.dataStart < blockBytes) :
    BlockOk im (tlsSeat mem (im.tp th)) (im.tp th) fun _ => none := by
  have htable := im.table_le
  have hbrk : load16 (tlsSeat mem (im.tp th)) (im.tp th) = 0 := load16_tlsSeat mem (im.tp th) (k := 0) (by decide)
  refine ⟨.inl ⟨hbrk, fun _ => rfl⟩, ?_, ?_, ?_, ?_, ?_⟩
  · intro i hi _
    rw [Nat.add_assoc]
    exact load16_tlsSeat mem (im.tp th) (by omega)
  · intro i e he
    cases he
  · intro i e he
    cases he
  · intro i e he
    cases he
  · intro i j e e' _ he
    cases he

theorem BlockOk.elsewhere {mem mem' : Mem} {th th' : Nat} {h : Nat → Option Extent} (hb : BlockOk im mem (im.tp th') h)
    (hroom : im.dataStart < blockBytes) (hne : th' ≠ th) (hs : SameOutside mem mem' (im.tp th) (im.tp th + blockBytes)) :
    BlockOk im mem' (im.tp th') h := by
  refine hb.frame fun k hk => hs _ ?_
  have hapart := im.blocks_apart hne
  omega

end Seat

end KickOS.Tls
