import KickOS.Argv.Model

/-! What the kernel reads of the caller is what the caller may read. -/

namespace KickOS.Argv
open Range Lib Buffer Extent

variable {w n : Nat} {c : Caller w n} {m : World w} {ord : Order w} {ptr len i j : BitVec w} {io io' : Io w}

/-! ### Parts of a readable run -/

section Parts

theorem toNat_stop (h : ¬ ptr + len < ptr) : (ptr + len).toNat = ptr.toNat + len.toNat := by
  have hlt := mt add_lt_iff.2 h
  rw [BitVec.toNat_add, Nat.mod_eq_of_lt (Nat.not_le.1 hlt)]

/-- A run inside another. -/
structure Inside (ptr len i j : BitVec w) : Prop where
  whole : ¬ ptr + len < ptr
  le : i.toNat + j.toNat ≤ len.toNat

theorem Inside.start (h : Inside ptr len i j) : (ptr + i).toNat = ptr.toNat + i.toNat := by
  have h1 := toNat_stop h.whole
  have h2 := (ptr + len).isLt
  have h3 := h.le
  rw [BitVec.toNat_add, Nat.mod_eq_of_lt (by omega)]

theorem Inside.stop (h : Inside ptr len i j) : (ptr + i + j).toNat = ptr.toNat + i.toNat + j.toNat := by
  have h1 := toNat_stop h.whole
  have h2 := (ptr + len).isLt
  have h3 := h.le
  rw [BitVec.toNat_add, h.start, Nat.mod_eq_of_lt (by omega)]

theorem Inside.not_wrap (h : Inside ptr len i j) : ¬ ptr + i + j < ptr + i := by
  rw [BitVec.lt_def, h.stop, h.start]
  omega

theorem Inside.start_ge (h : Inside ptr len i j) {lo : BitVec w} (hlo : lo ≤ ptr) : lo ≤ ptr + i := by
  rw [BitVec.le_def] at hlo ⊢
  rw [h.start]
  omega

theorem Inside.stop_le (h : Inside ptr len i j) {hi : BitVec w} (hhi : ptr + len ≤ hi) : ptr + i + j ≤ hi := by
  have h1 := toNat_stop h.whole
  have h3 := h.le
  rw [BitVec.le_def] at hhi ⊢
  rw [h.stop]
  omega

theorem rangeOk_part (h : c.rangeOk ptr len = true) (hl : len ≠ 0) (hj : i.toNat + j.toNat ≤ len.toNat) :
    c.rangeOk (ptr + i) j = true := by
  unfold Caller.rangeOk at h ⊢
  rw [if_neg hl] at h
  split_ifs at h with hwrap
  have hin : Inside ptr len i j := ⟨hwrap, hj⟩
  by_cases h0 : j = 0
  · rw [if_pos h0]
  · rw [if_neg h0, if_neg hin.not_wrap]
    simp only [decide_eq_true_eq] at h ⊢
    rcases h with ⟨r, hr, h1, h2, h3, hlo, hhi⟩ | ⟨b, hb, hlo, hhi⟩ | ⟨v, hv, hcov⟩
    · exact .inl ⟨r, hr, h1, h2, h3, hin.start_ge hlo, hin.stop_le hhi⟩
    · exact .inr (.inl ⟨b, hb, hin.start_ge hlo, hin.stop_le hhi⟩)
    · refine .inr (.inr ⟨v, hv, ?_⟩)
      have hinv := c.whole v hv
      obtain ⟨-, e, hg, hsub, hr⟩ := hinv.covers_iff.1 hcov
      refine hinv.covers_iff.2 ⟨h0, e, hg, ?_, hr⟩
      refine Set.Subset.trans ?_ hsub
      rw [hin.start]
      exact Set.Ico_subset_Ico (by omega) (by omega)

theorem hook_part {hook : Hook w} (h : hook.readable ptr len = true) (hl : len ≠ 0) (hj : i.toNat + j.toNat ≤ len.toNat) :
    hook.readable (ptr + i) j = true := by
  have hno : ∀ {a b : BitVec w}, a ≤ b ↔ ¬ b < a := fun {a b} => by rw [BitVec.le_def, BitVec.lt_def]; omega
  unfold Hook.readable at h ⊢
  split at h
  · cases h
  next extents =>
    simp only [decide_eq_true_eq] at h ⊢
    obtain ⟨hw, e, he, h1, hlo, hhi⟩ := h.resolve_left hl
    have hin : Inside ptr len i j := ⟨hno.1 hw, hj⟩
    exact .inr ⟨hno.2 hin.not_wrap, e, he, h1, hin.start_ge hlo, hin.stop_le hhi⟩
  next start stop arena =>
    simp only [decide_eq_true_eq, Option.all_eq_true] at h ⊢
    obtain ⟨hw, ⟨h1, hlo, hhi⟩, ha⟩ := h.resolve_left hl
    have hin : Inside ptr len i j := ⟨hno.1 hw, hj⟩
    refine .inr ⟨hno.2 hin.not_wrap, ⟨h1, hin.start_ge hlo, hin.stop_le hhi⟩, ?_⟩
    intro a hmem hits
    refine ha a hmem ⟨?_, ?_⟩
    · have h2 := hits.1
      rw [BitVec.lt_def] at h2 ⊢
      rw [hin.start] at h2
      omega
    · have h2 := hits.2
      have h3 := toNat_stop hin.whole
      rw [BitVec.lt_def] at h2 ⊢
      rw [hin.stop] at h2
      omega

theorem readableOk_part (h : c.readableOk ptr len = true) (hj : i.toNat + j.toNat ≤ len.toNat) :
    c.readableOk (ptr + i) j = true := by
  unfold Caller.readableOk at h ⊢
  by_cases hl : len = 0
  · have hj0 : j = 0 := by
      refine BitVec.eq_of_toNat_eq ?_
      subst hl
      simp at hj
      simpa using hj.2
    simp [hj0, Caller.rangeOk]
  · rw [Bool.or_eq_true] at h ⊢
    rcases h with h | h
    · exact .inl (rangeOk_part h hl hj)
    · exact .inr (hook_part h hl hj)

end Parts

/-! ### Lengths -/

section Lengths

variable {s : BitVec w} {k room : Nat}

theorem Caller.lt_of_le (c : Caller w n) (h : k ≤ 65535) : k < 2 ^ w :=
  calc
    k < 2 ^ 32 := by omega
    _ ≤ 2 ^ w := Nat.pow_le_pow_right (by decide) c.wide

theorem word_lt : w / 8 < 2 ^ w := (Nat.div_le_self w 8).trans_lt Nat.lt_two_pow_self

theorem toNat_ofNat_of_lt (h : k < 2 ^ w) : (BitVec.ofNat w k).toNat = k := by rw [BitVec.toNat_ofNat, Nat.mod_eq_of_lt h]

theorem ofNat_add_ofNat (a b : Nat) : s + BitVec.ofNat w a + BitVec.ofNat w b = s + BitVec.ofNat w (a + b) := by
  rw [BitVec.add_assoc, ← BitVec.ofNat_add]

def Readable (c : Caller w n) (a : BitVec w) : Prop := c.readableOk a 1 = true

theorem readableOk_run {p q : Nat} (h : c.readableOk s (BitVec.ofNat w k) = true) (hk : k < 2 ^ w) (hle : p + q ≤ k) :
    c.readableOk (s + BitVec.ofNat w p) (BitVec.ofNat w q) = true := by
  refine readableOk_part h ?_
  rw [toNat_ofNat_of_lt hk, toNat_ofNat_of_lt (by omega), toNat_ofNat_of_lt (by omega)]
  exact hle

theorem readable_of_run {p : Nat} (h : c.readableOk s (BitVec.ofNat w k) = true) (hk : k < 2 ^ w) (hp : p < k) :
    Readable c (s + BitVec.ofNat w p) := readableOk_run h hk hp

theorem readableOk_le {q : Nat} (h : c.readableOk s (BitVec.ofNat w k) = true) (hk : k < 2 ^ w) (hle : q ≤ k) :
    c.readableOk s (BitVec.ofNat w q) = true := by
  have hrun := readableOk_run (p := 0) h hk (by omega : 0 + q ≤ k)
  simpa using hrun

theorem halve_spec {lo hi : Nat} (fuel : Nat) (hfuel : hi - lo ≤ fuel) (hlt : lo < hi) (hhi : hi < 2 ^ w)
    (hok : c.readableOk s (BitVec.ofNat w lo) = true) (hno : c.readableOk s (BitVec.ofNat w hi) = false) :
    c.readableOk s (BitVec.ofNat w (c.halve s fuel lo hi)) = true ∧ c.halve s fuel lo hi < hi ∧
      ∀ q, q ≤ hi → c.readableOk s (BitVec.ofNat w q) = true → q ≤ c.halve s fuel lo hi := by
  induction fuel generalizing lo hi with
  | zero => omega
  | succ fuel ih =>
    unfold Caller.halve
    split_ifs with hgap hmid
    · obtain ⟨h1, h2, h3⟩ := ih (by omega) (by omega) hhi hmid hno
      exact ⟨h1, h2, h3⟩
    · have hmid : c.readableOk s (BitVec.ofNat w (lo + (hi - lo) / 2)) = false := by simpa using hmid
      obtain ⟨h1, h2, h3⟩ := ih (by omega) (by omega) (by omega) hok hmid
      refine ⟨h1, by omega, ?_⟩
      intro q hq hqok
      refine h3 q ?_ hqok
      by_contra hgt
      have hle := readableOk_le hqok (by omega) (Nat.le_of_not_le hgt)
      rw [hmid] at hle
      cases hle
    · refine ⟨hok, hlt, ?_⟩
      intro q hq hqok
      by_contra hgt
      have heq : q = hi := by omega
      rw [heq, hno] at hqok
      cases hqok

theorem readableLen_spec (c : Caller w n) (s : BitVec w) (hr : room < 2 ^ w) :
    c.readableOk s (BitVec.ofNat w (c.readableLen s room)) = true ∧ c.readableLen s room ≤ room ∧
      ∀ q, q ≤ room → c.readableOk s (BitVec.ofNat w q) = true → q ≤ c.readableLen s room := by
  unfold Caller.readableLen
  split_ifs with hall
  · exact ⟨hall, le_rfl, fun q hq _ => hq⟩
  · have hzero : c.readableOk s (BitVec.ofNat w 0) = true := by simp [Caller.readableOk, Caller.rangeOk]
    have hpos : 0 < room := by
      rcases Nat.eq_zero_or_pos room with h0 | hpos
      · rw [h0] at hall
        exact absurd hzero hall
      · exact hpos
    obtain ⟨h1, h2, h3⟩ := halve_spec room (by omega) hpos hr hzero (by simpa using hall)
    exact ⟨h1, h2.le, h3⟩

end Lengths

/-! ### Reads -/

/-- All that was read in between the caller may read. -/
def Reads (c : Caller w n) (io io' : Io w) : Prop := ∀ a ∈ io'.reads, a ∈ io.reads ∨ Readable c a

theorem Reads.refl (c : Caller w n) (io : Io w) : Reads c io io := fun _ h => .inl h

theorem Reads.trans {io'' : Io w} (h : Reads c io io') (h' : Reads c io' io'') : Reads c io io'' := by
  intro a ha
  rcases h' a ha with ha | hr
  · exact h a ha
  · exact .inr hr

theorem copyIn_reads {first : Bool} {src : BitVec w} {k : Nat} (h : ∀ p, p < k → Readable c (src + BitVec.ofNat w p)) :
    Reads c io (m.copyIn first src k io).io := by
  induction k generalizing first src io with
  | zero => exact .refl c io
  | succ k ih =>
    unfold World.copyIn
    split_ifs
    · exact .refl c io
    · have hfirst : Reads c io ⟨io.now + 1, src :: io.reads⟩ := by
        intro a ha
        rcases List.mem_cons.1 ha with rfl | ha
        · have h0 := h 0 (Nat.succ_pos k)
          rw [BitVec.add_zero] at h0
          exact .inr h0
        · exact .inl ha
      refine hfirst.trans (ih ?_)
      intro p hp
      have hs := h (p + 1) (by omega)
      rw [Nat.add_comm, ← ofNat_add_ofNat] at hs
      exact hs

theorem length_copyIn (m : World w) (first : Bool) (src : BitVec w) (k : Nat) (io : Io w) :
    (m.copyIn first src k io).bytes.length ≤ k ∧ ((m.copyIn first src k io).ok = true →
      (m.copyIn first src k io).bytes.length = k) := by
  induction k generalizing first src io with
  | zero => simp [World.copyIn]
  | succ k ih =>
    unfold World.copyIn
    split_ifs
    · simp
    · obtain ⟨h1, h2⟩ : (m.copyIn false (src + 1) k ⟨io.now + 1, src :: io.reads⟩).bytes.length ≤ k ∧ _ := ih false (src + 1) _
      simp only [List.length_cons]
      exact ⟨by omega, fun hok => by rw [h2 hok]⟩

theorem slotIn_reads {vector : BitVec w} {i : Nat} : Reads c io (slotIn c m ord vector i io).1 := by
  unfold slotIn
  dsimp only
  split
  next hr => exact copyIn_reads fun p hp => readable_of_run hr word_lt hp
  · exact .refl c io

/-! ### Strings -/

section Strings

variable {own : Option (Nat → BitVec 8)} {s : BitVec w} {room pos len k : Nat}

theorem scan_ok {bytes : List (BitVec 8)} (h : scan own pos bytes = some (.ok len)) : pos ≤ len ∧ len < pos + bytes.length := by
  induction bytes generalizing pos with
  | nil => cases h
  | cons b bytes ih =>
    unfold scan at h
    split_ifs at h
    · cases h
    · cases h
      simp
    · obtain ⟨h1, h2⟩ := ih h
      rw [List.length_cons]
      omega

theorem readable_chunk (hr : room ≤ 65535) {p : Nat} (hp : p <
    c.readableLen (s + BitVec.ofNat w pos) (min (room - pos) nameChunk)) :
    Readable c (s + BitVec.ofNat w (pos + p)) := by
  have hlt : min (room - pos) nameChunk < 2 ^ w := c.lt_of_le (by omega)
  obtain ⟨hok, hle, -⟩ := readableLen_spec c (s + BitVec.ofNat w pos) hlt
  have hb := readable_of_run hok (by omega) hp
  rwa [ofNat_add_ofNat] at hb

/-- The measure reads only what is readable, and the string it finds is readable with its NUL and shorter than the room. -/
theorem stringFrom_reads (c : Caller w n) (m : World w) (own : Option (Nat → BitVec 8)) (s : BitVec w)
    (hr : room ≤ 65535) (fuel pos : Nat) (io : Io w) : Reads c io (stringFrom c m own s room fuel pos io).1 ∧
      ∀ len, (stringFrom c m own s room fuel pos io).2 = .ok len →
        len < room ∧ ∀ p, pos ≤ p → p ≤ len → Readable c (s + BitVec.ofNat w p) := by
  induction fuel generalizing pos io with
  | zero => exact ⟨.refl c io, fun len h => by cases h⟩
  | succ fuel ih =>
    unfold stringFrom
    dsimp only
    split
    next hpos =>
      have hlt : min (room - pos) nameChunk < 2 ^ w := c.lt_of_le (by omega)
      obtain ⟨-, hle, -⟩ := readableLen_spec c (s + BitVec.ofNat w pos) hlt
      generalize hk : c.readableLen (s + BitVec.ofNat w pos) (min (room - pos) nameChunk) = k at hle ⊢
      have hbyte : ∀ p, p < k → Readable c (s + BitVec.ofNat w (pos + p)) := fun p hp => readable_chunk hr (hk ▸ hp)
      have hread : Reads c io (m.copyIn true (s + BitVec.ofNat w pos) k io).io := by
        refine copyIn_reads ?_
        intro p hp
        rw [ofNat_add_ofNat]
        exact hbyte p hp
      split
      · exact ⟨.refl c io, fun len h => by cases h⟩
      · split
        · exact ⟨hread, fun len h => by cases h⟩
        · split
          next r hscan =>
            refine ⟨hread, ?_⟩
            intro len hlen
            have hlen : r = .ok len := hlen
            rw [hlen] at hscan
            obtain ⟨h1, h2⟩ := scan_ok hscan
            have h3 := (length_copyIn m true (s + BitVec.ofNat w pos) k io).1
            refine ⟨by omega, ?_⟩
            intro p hp1 hp2
            have hb := hbyte (p - pos) (by omega)
            rwa [Nat.add_sub_cancel' hp1] at hb
          next hscan =>
            split
            · exact ⟨hread, fun len h => by cases h⟩
            · obtain ⟨h1, h2⟩ := ih (pos + k) (m.copyIn true (s + BitVec.ofNat w pos) k io).io
              refine ⟨hread.trans h1, ?_⟩
              intro len hlen
              obtain ⟨hlt, hrest⟩ := h2 len hlen
              refine ⟨hlt, ?_⟩
              intro p hp1 hp2
              by_cases hpk : p < pos + k
              · have hb := hbyte (p - pos) (by omega)
                rwa [Nat.add_sub_cancel' hp1] at hb
              · exact hrest p (by omega) hp2
    · exact ⟨.refl c io, fun len h => by cases h⟩

theorem stringLen_reads (c : Caller w n) (m : World w) (own : Option (Nat → BitVec 8)) (s : BitVec w)
    (hr : room ≤ 65535) (io : Io w) : Reads c io (stringLen c m own s room io).1 ∧
      ∀ len, (stringLen c m own s room io).2 = .ok len → len < room ∧ ∀ p, p ≤ len → Readable c (s + BitVec.ofNat w p) := by
  obtain ⟨h1, h2⟩ := stringFrom_reads c m own s hr room 0 io
  refine ⟨h1, ?_⟩
  intro len hlen
  obtain ⟨hlt, hread⟩ := h2 len hlen
  exact ⟨hlt, fun p hp => hread p (Nat.zero_le p) hp⟩

end Strings

end KickOS.Argv
