import KickOS.Image.Check

/-! What the boot's check of the images establishes: no extent of an accepted header wraps, its code and its window lie
apart from the kernel's and from the other images', and what the kernel reads of it afterwards lies inside. -/

namespace KickOS.Image

variable {w : Nat}

def Span.bytes (m : Span w) : Set Nat := Set.Ico m.start.toNat m.stop.toNat

/-- The extent lies in the span, and so it does not wrap. -/
def Span.Holds (m : Span w) (base : BitVec w) (size : Nat) : Prop := m.start.toNat ≤ base.toNat ∧ base.toNat + size ≤ m.stop.toNat

/-- A text that ends before the end of the span. -/
def Span.Text (m : Span w) (mem : Memory w) (p : BitVec w) : Prop := ∃ n, m.Holds p (n + 1) ∧ mem.byte (p + word w n) = 0

/-- What is established of one image. -/
structure Sound (r : Record w) : Prop where
  code : r.bounds.code.Holds r.header.codeStart (r.header.codeEnd.toNat - r.header.codeStart.toNat) ∧
    r.header.codeStart.toNat < r.header.codeEnd.toNat ∧ Disjoint r.header.code.bytes r.bounds.kernelCode.bytes
  /-- The code is apart from what the code memory is apart from. -/
  codeApart : ∀ m ∈ [r.bounds.kernelData, r.bounds.kernelStacks, r.bounds.arena],
    Disjoint r.bounds.code.bytes m.bytes → Disjoint r.header.code.bytes m.bytes
  cas : r.header.casStart ≠ 0 → r.header.casStart.toNat ≤ r.header.casStore.toNat ∧
    r.header.code.Holds r.header.casStart (r.header.casStore.toNat + 1 - r.header.casStart.toNat)
  window : r.bounds.ram.Holds r.header.windowStart r.header.windowSize.toNat ∧
    r.header.window.stop.toNat = r.header.windowStart.toNat + r.header.windowSize.toNat
  kernel : ∀ m ∈ [r.bounds.kernelCode, r.bounds.kernelData, r.bounds.kernelStacks, r.bounds.arena, r.bounds.code],
    Disjoint r.header.window.bytes m.bytes
  initArgs : r.header.window.Holds r.header.initArgs (2 * wordBytes w)
  data : r.header.window.Holds r.header.dataStart (r.header.bssEnd.toNat - r.header.dataStart.toNat) ∧
    r.header.dataStart.toNat ≤ r.header.dataEnd.toNat ∧ r.header.dataEnd.toNat ≤ r.header.bssEnd.toNat
  heap : r.header.window.Holds r.header.heapStart (r.header.heapEnd.toNat - r.header.heapStart.toNat) ∧
    r.header.bssEnd.toNat ≤ r.header.heapStart.toNat ∧ r.header.heapStart.toNat ≤ r.header.heapEnd.toNat
  /-- The constructors, which the image's own entry calls. -/
  ctor : r.header.ctorStart.toNat ≤ r.header.ctorEnd.toNat ∧
    (r.header.code.Holds r.header.ctorStart (r.header.ctorEnd.toNat - r.header.ctorStart.toNat) ∨
      r.header.window.Holds r.header.ctorStart (r.header.ctorEnd.toNat - r.header.ctorStart.toNat))
  dataLoad : (r.bounds.dataInPlace = true ∧ r.header.dataLoad = r.header.dataStart) ∨
    r.header.code.Holds r.header.dataLoad (r.header.dataEnd.toNat - r.header.dataStart.toNat)
  reentSeat : r.header.reentSeat ≠ 0 → r.header.window.Holds r.header.reentSeat (wordBytes w)
  reentTemplate : r.header.reentWidth ≠ 0 → r.header.data.Holds r.header.reentTemplate r.header.reentWidth.toNat
  /-- The template is in the link's one thread-local segment, at the image's own offset. -/
  tls : r.bounds.tls.Holds r.header.tlsTemplate r.header.tlsInit.toNat ∧
    r.header.tlsTemplate.toNat = r.bounds.tls.start.toNat + r.header.tlsOffset.toNat ∧
    r.header.tlsTemplate.toNat + r.header.tlsTotal.toNat ≤ r.bounds.tls.stop.toNat
  program : r.header.code.Text r.mem r.header.program
  stamp : r.header.code.Text r.mem r.header.stamp
  decls : ∀ i, i < r.header.declCount.toNat → r.header.code.Holds (declAt r.header i) declBytes ∧
    (declAt r.header i).toNat = r.header.decls.toNat + i * declBytes
  names : ∀ i, i < r.header.declCount.toNat →
    r.header.code.Text r.mem (r.header.decls + (r.mem.decl (declAt r.header i)).name.setWidth w)
  grants : ∀ i k, i < r.header.declCount.toNat → k < (r.mem.decl (declAt r.header i)).grantCount.toNat →
    r.header.code.Holds (grantAt r.header (r.mem.decl (declAt r.header i)) k) (grantBytes w)

/-! ### The tests -/

section Tests

variable {start stop base size p : BitVec w} {m n : Span w}

theorem refuse_cons {c : Bool} {e : ImageCheck} {tests : List (Bool × ImageCheck)} (he : e ≠ .ok) :
    refuse ((c, e) :: tests) = .ok ↔ c = false ∧ refuse tests = .ok := by
  cases c with
  | true => simp [refuse, he]
  | false => simp [refuse]

theorem firstOf_ok {checks : List ImageCheck} : firstOf checks = .ok ↔ ∀ c ∈ checks, c = .ok := by
  induction checks with
  | nil => simp [firstOf]
  | cons c checks ih => cases c <;> simp [firstOf, ih]

theorem within_iff : within start stop m = true ↔
    start.toNat ≤ stop.toNat ∧ m.start.toNat ≤ start.toNat ∧ stop.toNat ≤ m.stop.toNat := by
  simp [within, spanOk, BitVec.le_def, and_assoc]

theorem sizedWithin_holds (h : sizedWithin base size m = true) : m.Holds base size.toNat := by
  simp only [sizedWithin, decide_eq_true_eq] at h
  obtain ⟨hlo, hhi, hsize⟩ := h
  rw [BitVec.le_def] at hlo hhi hsize
  rw [BitVec.toNat_sub_of_le hhi] at hsize
  exact ⟨hlo, by omega⟩

theorem byteWithin_holds (h : byteWithin p m = true) : m.Holds p 1 := by
  simp only [byteWithin, decide_eq_true_eq] at h
  obtain ⟨-, hlo, hhi⟩ := h
  rw [BitVec.le_def] at hlo
  rw [BitVec.lt_def] at hhi
  exact ⟨hlo, hhi⟩

theorem disjoint_of_not_meets (h : meets m.start m.stop n = false) : Disjoint m.bytes n.bytes := by
  rw [Set.disjoint_left]
  rintro a ⟨hlo, hhi⟩ ⟨hlo', hhi'⟩
  unfold meets at h
  split at h
  next heq =>
    rcases heq with heq | heq
    · rw [heq] at hhi
      omega
    · rw [heq] at hhi'
      omega
  next =>
    simp only [decide_eq_false_iff_not, not_and_or, BitVec.lt_def] at h
    omega

theorem toNat_add_word {k : Nat} (h : p.toNat + k ≤ m.stop.toNat) : (p + word w k).toNat = p.toNat + k := by
  have hlt := m.stop.isLt
  rw [word, BitVec.toNat_add, BitVec.toNat_ofNat, Nat.add_mod_mod, Nat.mod_eq_of_lt (by omega)]

theorem stringWithin_text {mem : Memory w} (h : stringWithin mem p m.stop = true) (hp : m.Holds p 1) : m.Text mem p := by
  simp only [stringWithin, List.any_eq_true, List.mem_range, decide_eq_true_eq] at h
  obtain ⟨k, hk, hnul⟩ := h
  have hle : p ≤ m.stop := by
    rw [BitVec.le_def]
    have := hp.2
    omega
  rw [BitVec.toNat_sub_of_le hle] at hk
  exact ⟨k, ⟨hp.1, by omega⟩, hnul⟩

end Tests

/-! ### One image -/

section One

variable {h : Header w} {b : Bounds w} {mem : Memory w} {earlier : List (Header w)}

/-- What the tests of the spans leave. -/
structure Passed (h : Header w) (b : Bounds w) (mem : Memory w) (earlier : List (Header w)) : Prop where
  tlsSizes : ¬ h.tlsTotal < h.tlsInit
  tlsSegment : ¬ b.tls.stop - b.tls.start < h.tlsOffset ∧ ¬ b.tls.stop - b.tls.start - h.tlsOffset < h.tlsTotal
  codeSpan : within h.codeStart h.codeEnd b.code = true ∧ h.codeEnd ≠ h.codeStart
  cas : h.casStart ≠ 0 → within h.casStart (h.casStore + 1) h.code = true
  codeKernel : meets h.codeStart h.codeEnd b.kernelCode = false
  codeOverlap : ∀ e ∈ earlier, meets h.codeStart h.codeEnd e.code = false
  windowSpan : sizedWithin h.windowStart h.windowSize b.ram = true
  windowKernel : ∀ m ∈ [b.kernelCode, b.kernelData, b.kernelStacks, b.arena, b.code], meets h.window.start h.window.stop m = false
  windowOverlap : ∀ e ∈ earlier, meets h.window.start h.window.stop e.window = false
  initArgs : sizedWithin h.initArgs (word w (2 * wordBytes w)) h.window = true
  data : within h.dataStart h.dataEnd h.window = true ∧ within h.dataEnd h.bssEnd h.window = true
  heap : within h.heapStart h.heapEnd h.window = true ∧ ¬ h.heapStart < h.bssEnd
  reentSeat : h.reentSeat ≠ 0 → sizedWithin h.reentSeat (word w (wordBytes w)) h.window = true
  reentTemplate : h.reentWidth ≠ 0 → sizedWithin h.reentTemplate h.reentWidth h.data = true
  dataLoad : (b.dataInPlace = true ∧ h.dataLoad = h.dataStart) ∨ sizedWithin h.dataLoad (h.dataEnd - h.dataStart) h.code = true
  tlsTemplate : h.tlsTemplate = b.tls.start + h.tlsOffset ∧ sizedWithin h.tlsTemplate h.tlsInit b.tls = true
  ctor : within h.ctorStart h.ctorEnd h.code = true ∨ within h.ctorStart h.ctorEnd h.window = true
  program : byteWithin h.program h.code = true ∧ stringWithin mem h.program h.codeEnd = true
  stamp : byteWithin h.stamp h.code = true ∧ stringWithin mem h.stamp h.codeEnd = true

theorem checkSpans_passed (hc : checkSpans h b mem earlier = .ok) : Passed h b mem earlier := by
  simp only [checkSpans, refuse_cons, ne_eq, reduceCtorEq, not_false_eq_true, Bool.or_eq_false_iff,
    Bool.not_eq_false', decide_eq_false_iff_not, List.any_eq_false, Bool.not_eq_true] at hc
  obtain ⟨h1, -, h3, h4, -, -, -, -, h9, h10, h11, h12, h13, h14, h15, -, h17, h18, h19, h20, h21, h22, h23, h24, -,
      h26, h27, -⟩ := hc
  refine ⟨h1, h3, h4, by simpa using h9, h10, h11, h12, ?_, h15, h17, h18, h19.1, ?_, ?_, ?_, ?_, ?_, h26, h27⟩
  · simp only [List.mem_cons, List.not_mem_nil, or_false]
    rintro m (rfl | rfl | rfl | rfl | rfl)
    · exact h13.1.1.1
    · exact h13.1.1.2
    · exact h13.1.2
    · exact h13.2
    · exact h14
  · intro hne
    have h20 : h.reentSeat ≠ 0 → aligned h.reentSeat (word w (wordBytes w)) = true ∧
        sizedWithin h.reentSeat (word w (wordBytes w)) h.window = true := by simpa using h20
    exact (h20 hne).2
  · simpa using h21
  · by_cases hplace : b.dataInPlace = true ∧ h.dataLoad = h.dataStart
    · exact .inl hplace
    · refine .inr ?_
      rw [Bool.and_eq_false_iff] at h22
      simpa [hplace] using h22
  · simpa using h23
  · have h24 := h24.1
    rw [Bool.and_eq_false_iff, Bool.not_eq_false', Bool.not_eq_false'] at h24
    exact h24

theorem headerCheck_passed (hc : headerCheck h b mem earlier = .ok) (hs : b.spans = true) :
    (¬ b.declsMax < h.declCount ∧ ¬ h.casStore < h.casStart) ∧ Passed h b mem earlier ∧ checkDecls h b mem true = .ok := by
  rw [headerCheck, firstOf_ok] at hc
  simp only [List.mem_cons, List.not_mem_nil, or_false, forall_eq_or_imp, forall_eq, hs, if_true] at hc
  obtain ⟨h1, h2, h3⟩ := hc
  refine ⟨?_, checkSpans_passed h2, h3⟩
  simp only [refuse_cons, ne_eq, reduceCtorEq, not_false_eq_true, Bool.or_eq_false_iff, decide_eq_false_iff_not] at h1
  obtain ⟨-, -, -, -, -, ⟨⟨-, hmax⟩, -⟩, -, -, -, -, -, ⟨hcas, -⟩, -⟩ := h1
  exact ⟨hmax, hcas⟩

theorem checkDecls_passed (hc : checkDecls h b mem true = .ok) {i : Nat} (hi : i < h.declCount.toNat) :
    sizedWithin h.decls (h.declCount * word w declBytes) h.code = true ∧
      checkDecl h b mem true (mem.decl (declAt h i)) = .ok := by
  unfold checkDecls at hc
  split at hc
  next hzero => simp [hzero] at hi
  next =>
    split at hc
    next => cases hc
    next harray =>
      refine ⟨by simp [arrayOk] at harray; exact harray.2, ?_⟩
      rw [firstOf_ok] at hc
      exact hc _ (List.mem_map.mpr ⟨i, List.mem_range.mpr hi, rfl⟩)

theorem offsetOk_holds {offset bytes : BitVec w} (hd : h.code.Holds h.decls 0) (ho : offsetOk offset bytes h true = true) :
    (h.decls + offset).toNat = h.decls.toNat + offset.toNat ∧ h.code.Holds (h.decls + offset) bytes.toNat := by
  simp only [offsetOk, Bool.not_true, Bool.false_or, Bool.and_eq_true, decide_eq_true_eq] at ho
  obtain ⟨hoff, hbytes⟩ := ho
  have hle : h.decls ≤ h.codeEnd := by
    rw [BitVec.le_def]
    exact hd.2
  rw [BitVec.le_def, BitVec.toNat_sub_of_le hle] at hoff
  rw [BitVec.le_def, BitVec.toNat_sub_of_le (by rw [BitVec.le_def, BitVec.toNat_sub_of_le hle]; exact hoff),
    BitVec.toNat_sub_of_le hle] at hbytes
  have hlt := h.codeEnd.isLt
  have hlo : h.codeStart.toNat ≤ h.decls.toNat := hd.1
  have hhi : h.decls.toNat ≤ h.codeEnd.toNat := hd.2
  have hadd : (h.decls + offset).toNat = h.decls.toNat + offset.toNat := by
    rw [BitVec.toNat_add, Nat.mod_eq_of_lt (by omega)]
  refine ⟨hadd, ?_, ?_⟩
  · rw [hadd]
    exact Nat.le_add_right_of_le hlo
  · have hcode : h.code.stop.toNat = h.codeEnd.toNat := rfl
    rw [hadd, hcode]
    omega

theorem checkDecl_name {d : TaskDecl} (hw : 0 < w) (hd : h.code.Holds h.decls 0) (hc : checkDecl h b mem true d = .ok) :
    h.code.Text mem (h.decls + d.name.setWidth w) := by
  rw [checkDecl, firstOf_ok] at hc
  simp only [List.mem_cons, List.not_mem_nil, or_false, forall_eq_or_imp, forall_eq, refuse_cons, ne_eq, reduceCtorEq,
    not_false_eq_true, Bool.or_eq_false_iff, Bool.true_and, Bool.not_eq_false'] at hc
  obtain ⟨⟨⟨⟨-, hoff⟩, htext⟩, -⟩, -⟩ := hc
  obtain ⟨-, hholds⟩ := offsetOk_holds hd hoff
  have hone : (1 : BitVec w).toNat = 1 := BitVec.toNat_one hw
  rw [hone] at hholds
  exact stringWithin_text htext hholds

theorem checkDecl_grants {d : TaskDecl} (hw : 32 ≤ w) (hd : h.code.Holds h.decls 0)
    (hc : checkDecl h b mem true d = .ok) {k : Nat} (hk : k < d.grantCount.toNat) :
    h.code.Holds (grantAt h d k) (grantBytes w) := by
  rw [checkDecl, firstOf_ok] at hc
  have hg := hc (checkGrants d b h mem true) (by simp)
  unfold checkGrants at hg
  split at hg
  next hzero => simp [hzero] at hk
  next =>
    simp only [firstOf_ok, List.mem_cons, List.not_mem_nil, or_false, forall_eq_or_imp, forall_eq, refuse_cons, ne_eq,
      reduceCtorEq, not_false_eq_true, Bool.or_eq_false_iff, Bool.not_eq_false'] at hg
    obtain ⟨⟨⟨-, hoff⟩, -⟩, -⟩ := hg
    obtain ⟨hadd, hlo, hhi⟩ := offsetOk_holds hd hoff
    have hcount := d.grantCount.isLt
    have hwide : 2 ^ 32 ≤ 2 ^ w := Nat.pow_le_pow_right (by omega) hw
    have hbytes : grantBytes w ≤ 24 := by
      unfold grantBytes
      split <;> omega
    have hsmall : d.grantCount.toNat * grantBytes w < 2 ^ w := by
      have := Nat.mul_le_mul (Nat.le_of_lt_succ (Nat.lt_succ_of_lt hcount)) hbytes
      omega
    rw [word, BitVec.toNat_ofNat, Nat.mod_eq_of_lt hsmall] at hhi
    have hstep : (k + 1) * grantBytes w ≤ d.grantCount.toNat * grantBytes w := Nat.mul_le_mul_right _ hk
    rw [Nat.succ_mul] at hstep
    have hat : (grantAt h d k).toNat = (h.decls + d.grants.setWidth w).toNat + k * grantBytes w :=
        toNat_add_word (m := h.code) (by omega)
    refine ⟨?_, ?_⟩
    · rw [hat]
      omega
    · rw [hat]
      omega

theorem checkDecls_holds (hw : 32 ≤ w) (hmax : ¬ b.declsMax < h.declCount) (hc : checkDecls h b mem true = .ok) {i : Nat}
    (hi : i < h.declCount.toNat) : h.code.Holds h.decls (h.declCount.toNat * declBytes) ∧
      (h.declCount * word w declBytes).toNat = h.declCount.toNat * declBytes := by
  have hsized := sizedWithin_holds (checkDecls_passed hc hi).1
  have hfew := b.declsMax_few
  have hle : h.declCount.toNat ≤ b.declsMax.toNat := by
    rw [BitVec.lt_def] at hmax
    omega
  have hwide : 2 ^ 32 ≤ 2 ^ w := Nat.pow_le_pow_right (by omega) hw
  have hmul : (h.declCount * word w declBytes).toNat = h.declCount.toNat * declBytes := by
    unfold declBytes at *
    rw [word, BitVec.toNat_mul, BitVec.toNat_ofNat, Nat.mul_mod_mod, Nat.mod_eq_of_lt (by omega)]
  rw [hmul] at hsized
  exact ⟨hsized, hmul⟩

theorem declAt_holds (hw : 32 ≤ w) (hmax : ¬ b.declsMax < h.declCount) (hc : checkDecls h b mem true = .ok) {i : Nat}
    (hi : i < h.declCount.toNat) : h.code.Holds (declAt h i) declBytes ∧ (declAt h i).toNat = h.decls.toNat + i * declBytes := by
  obtain ⟨⟨hlo, hhi⟩, -⟩ := checkDecls_holds hw hmax hc hi
  have hstep : (i + 1) * declBytes ≤ h.declCount.toNat * declBytes := Nat.mul_le_mul_right _ hi
  rw [Nat.succ_mul] at hstep
  have hat : (declAt h i).toNat = h.decls.toNat + i * declBytes := toNat_add_word (m := h.code) (by omega)
  refine ⟨⟨?_, ?_⟩, hat⟩
  · rw [hat]
    omega
  · rw [hat]
    omega

theorem Passed.window (hp : Passed h b mem earlier) : h.window.stop.toNat = h.windowStart.toNat + h.windowSize.toNat := by
  obtain ⟨hlo, hhi⟩ := sizedWithin_holds hp.windowSpan
  have hlt := b.ram.stop.isLt
  exact (BitVec.toNat_add ..).trans (Nat.mod_eq_of_lt (by omega))

theorem within_holds {start stop : BitVec w} {m : Span w} (hm : within start stop m = true) :
    start.toNat ≤ stop.toNat ∧ m.Holds start (stop.toNat - start.toNat) := by
  obtain ⟨hle, hlo, hhi⟩ := within_iff.mp hm
  exact ⟨hle, hlo, by omega⟩

/-- One past the store of the window is no wrap: the code ends behind it. -/
theorem Passed.cas_holds (hp : Passed h b mem earlier) (hcas : ¬ h.casStore < h.casStart) (hne : h.casStart ≠ 0) :
    h.casStart.toNat ≤ h.casStore.toNat ∧ h.code.Holds h.casStart (h.casStore.toNat + 1 - h.casStart.toNat) := by
  obtain ⟨hle, hlo, hhi⟩ := within_holds (hp.cas hne)
  have hpos : h.casStart.toNat ≠ 0 := fun hz => hne (BitVec.eq_of_toNat_eq (by rw [hz]; simp))
  rw [BitVec.lt_def] at hcas
  have hlt := h.casStore.isLt
  have hsum : (h.casStore + 1).toNat = (h.casStore.toNat + 1) % 2 ^ w := by
    rw [BitVec.toNat_add, show (1 : BitVec w).toNat = 1 % 2 ^ w from BitVec.toNat_ofNat 1 w, Nat.add_mod_mod]
  have hstop : (h.casStore + 1).toNat = h.casStore.toNat + 1 := by
    refine hsum.trans (Nat.mod_eq_of_lt (lt_of_le_of_ne hlt fun heq => hpos ?_))
    rw [hsum, (heq : h.casStore.toNat + 1 = 2 ^ w), Nat.mod_self] at hle
    omega
  rw [hstop] at hhi
  exact ⟨by omega, hlo, hhi⟩

theorem Passed.tls (hp : Passed h b mem earlier) : b.tls.Holds h.tlsTemplate h.tlsInit.toNat ∧
    h.tlsTemplate.toNat = b.tls.start.toNat + h.tlsOffset.toNat ∧ h.tlsTemplate.toNat + h.tlsTotal.toNat ≤ b.tls.stop.toNat := by
  obtain ⟨heq, hsized⟩ := hp.tlsTemplate
  obtain ⟨hoff, htotal⟩ := hp.tlsSegment
  obtain ⟨hlo, hhi⟩ := sizedWithin_holds hsized
  have hle : b.tls.start ≤ b.tls.stop := by
    rw [BitVec.le_def]
    omega
  have hlt := b.tls.stop.isLt
  rw [BitVec.lt_def, BitVec.toNat_sub_of_le hle] at hoff
  rw [BitVec.lt_def, BitVec.toNat_sub_of_le (by rw [BitVec.le_def, BitVec.toNat_sub_of_le hle]; omega),
    BitVec.toNat_sub_of_le hle] at htotal
  have hadd : h.tlsTemplate.toNat = b.tls.start.toNat + h.tlsOffset.toNat := by
    rw [heq, BitVec.toNat_add, Nat.mod_eq_of_lt (by omega)]
  exact ⟨⟨hlo, hhi⟩, hadd, by omega⟩

end One

theorem record_sound (hw : w = 32 ∨ w = 64) {r : Record w} {earlier : List (Header w)}
    (hc : headerCheck r.header r.bounds r.mem earlier = .ok) (hs : r.bounds.spans = true) : Sound r := by
  obtain ⟨⟨hmax, hcas⟩, hp, hd⟩ := headerCheck_passed hc hs
  have hwide : 32 ≤ w := by omega
  have hpow : 2 ^ 32 ≤ 2 ^ w := Nat.pow_le_pow_right (by omega) hwide
  have hword : wordBytes w ≤ 8 := by
    unfold wordBytes
    omega
  have hsmall : ∀ n, n ≤ 16 → (word w n).toNat = n := fun n hn => (BitVec.toNat_ofNat ..).trans (Nat.mod_eq_of_lt (by omega))
  obtain ⟨hcode, hne⟩ := hp.codeSpan
  obtain ⟨hcle, hclo, hchi⟩ := within_iff.mp hcode
  have hcne : r.header.codeStart.toNat ≠ r.header.codeEnd.toNat := fun heq => hne (BitVec.eq_of_toNat_eq heq.symm)
  obtain ⟨hdata, hbss⟩ := hp.data
  obtain ⟨hdle, hdlo, hdhi⟩ := within_iff.mp hdata
  obtain ⟨hble, hblo, hbhi⟩ := within_iff.mp hbss
  have hdecl : ∀ i, i < r.header.declCount.toNat → r.header.code.Holds r.header.decls 0 := by
    intro i hi
    obtain ⟨hlo, hhi⟩ := (checkDecls_holds hwide hmax hd hi).1
    exact ⟨hlo, by omega⟩
  refine
    { code := ⟨⟨hclo, by omega⟩, by omega, disjoint_of_not_meets hp.codeKernel⟩
      codeApart := fun m _ hm => hm.mono_left (Set.Ico_subset_Ico hclo hchi)
      cas := hp.cas_holds hcas
      window := ⟨sizedWithin_holds hp.windowSpan, hp.window⟩
      kernel := fun m hm => disjoint_of_not_meets (hp.windowKernel m hm)
      initArgs := ?_
      data := ⟨⟨hdlo, by omega⟩, hdle, hble⟩
      heap := ?_
      ctor := hp.ctor.elim (fun hm => (within_holds hm).imp_right .inl) fun hm => (within_holds hm).imp_right .inr
      dataLoad := ?_
      reentSeat := ?_
      reentTemplate := fun hne => sizedWithin_holds (hp.reentTemplate hne)
      tls := hp.tls
      program := stringWithin_text hp.program.2 (byteWithin_holds hp.program.1)
      stamp := stringWithin_text hp.stamp.2 (byteWithin_holds hp.stamp.1)
      decls := fun i hi => declAt_holds hwide hmax hd hi
      names := fun i hi => checkDecl_name (by omega) (hdecl i hi) (checkDecls_passed hd hi).2
      grants := fun i k hi hk => checkDecl_grants hwide (hdecl i hi) (checkDecls_passed hd hi).2 hk }
  · have hholds := sizedWithin_holds hp.initArgs
    rwa [hsmall _ (by omega)] at hholds
  · obtain ⟨hle, hholds⟩ := within_holds hp.heap.1
    have hbss := hp.heap.2
    rw [BitVec.lt_def] at hbss
    exact ⟨hholds, by omega, hle⟩
  · refine hp.dataLoad.imp_right fun hsized => ?_
    have hholds := sizedWithin_holds hsized
    rwa [BitVec.toNat_sub_of_le (by rw [BitVec.le_def]; exact hdle)] at hholds
  · intro hne
    have hholds := sizedWithin_holds (hp.reentSeat hne)
    rwa [hsmall _ (by omega)] at hholds

/-! ### The table -/

/-- Two images of one link lie apart, each code and each window from the other's. -/
structure Apart (a b : Record w) : Prop where
  code : Disjoint a.header.code.bytes b.header.code.bytes
  window : Disjoint a.header.window.bytes b.header.window.bytes
  codeWindow : Disjoint a.header.code.bytes b.header.window.bytes
  windowCode : Disjoint a.header.window.bytes b.header.code.bytes

theorem publishFrom_sound (hw : w = 32 ∨ w = 64) {translates : Bool} {met : List (Header w)} {images : List (Record w)}
    (hp : publishFrom translates met images = true) (hs : ∀ r ∈ images, r.bounds.spans = true) : ∀ r ∈ images, Sound r := by
  induction images generalizing met with
  | nil => simp
  | cons r images ih =>
    simp only [publishFrom, decide_eq_true_eq] at hp
    intro a ha
    rcases List.mem_cons.mp ha with rfl | ha
    · exact record_sound hw hp.1 (hs a List.mem_cons_self)
    · exact ih hp.2 (fun r hr => hs r (List.mem_cons_of_mem _ hr)) a ha

theorem publishFrom_passed {met : List (Header w)} {images : List (Record w)} (hp : publishFrom false met images = true)
    (hs : ∀ r ∈ images, r.bounds.spans = true) :
    (∀ r ∈ images, ∀ e ∈ met, meets r.header.codeStart r.header.codeEnd e.code = false ∧
      meets r.header.window.start r.header.window.stop e.window = false) ∧
    images.Pairwise fun a b => meets b.header.codeStart b.header.codeEnd a.header.code = false ∧
      meets b.header.window.start b.header.window.stop a.header.window = false := by
  induction images generalizing met with
  | nil => simp
  | cons r images ih =>
    simp only [publishFrom, decide_eq_true_eq, Bool.false_eq_true, if_false] at hp
    obtain ⟨hmet, hpair⟩ := ih hp.2 fun r hr => hs r (List.mem_cons_of_mem _ hr)
    obtain ⟨-, hpassed, -⟩ := headerCheck_passed hp.1 (hs r List.mem_cons_self)
    refine ⟨?_, List.pairwise_cons.mpr ⟨?_, hpair⟩⟩
    · intro a ha e he
      rcases List.mem_cons.mp ha with rfl | ha
      · exact ⟨hpassed.codeOverlap e he, hpassed.windowOverlap e he⟩
      · exact hmet a ha e (List.mem_append_left _ he)
    · intro a ha
      exact hmet a ha r.header (List.mem_append_right _ List.mem_cons_self)

theorem Sound.code_subset {r : Record w} (h : Sound r) : r.header.code.bytes ⊆ r.bounds.code.bytes := by
  obtain ⟨⟨hlo, hhi⟩, hlt, -⟩ := h.code
  exact Set.Ico_subset_Ico hlo (by unfold Header.code; simp only; omega)

theorem Table.apart (hw : w = 32 ∨ w = 64) {t : Table w} (ht : t.translates = false) (hp : t.publish = true)
    (hs : ∀ r ∈ t.images, r.bounds.spans = true) : t.images.Pairwise Apart := by
  have hsound := publishFrom_sound hw hp hs
  rw [Table.publish, ht] at hp
  refine (publishFrom_passed hp hs).2.imp_of_mem ?_
  intro a b ha hb hmeets
  -- a window is apart from the memory of all code
  have hcode : a.bounds.code = b.bounds.code := by rw [t.same ht a ha b hb]
  have hwin : ∀ r ∈ t.images, Disjoint r.header.window.bytes r.bounds.code.bytes := fun r hr => (hsound r hr).kernel _ (by simp)
  refine ⟨(disjoint_of_not_meets hmeets.1).symm, (disjoint_of_not_meets hmeets.2).symm, ?_, ?_⟩
  · refine ((hwin b hb).mono_right ?_).symm
    rw [← hcode]
    exact (hsound a ha).code_subset
  · refine (hwin a ha).mono_right ?_
    rw [hcode]
    exact (hsound b hb).code_subset

/-! ### The declarations of the link -/

theorem declImage_mem {images : List (Record w)} {n i : Nat} {r : Record w} (h : declImage images n = some (r, i)) :
    r ∈ images ∧ i < r.header.declCount.toNat := by
  induction images generalizing n with
  | nil => cases h
  | cons k images ih =>
    unfold declImage at h
    split at h
    next =>
      obtain ⟨hmem, hi⟩ := ih h
      exact ⟨List.mem_cons_of_mem _ hmem, hi⟩
    next hlt =>
      cases h
      exact ⟨List.mem_cons_self, not_le.mp hlt⟩

theorem Sound.array {r : Record w} (h : Sound r) (hw : 32 ≤ w) {d : BitVec w} :
    r.header.decls ≤ d ∧ d < r.header.decls + r.header.declCount * word w declBytes ↔
      r.header.decls.toNat ≤ d.toNat ∧ d.toNat < r.header.decls.toNat + r.header.declCount.toNat * declBytes := by
  rw [BitVec.le_def, BitVec.lt_def]
  refine and_congr_right fun _ => ?_
  rcases Nat.eq_zero_or_pos r.header.declCount.toNat with hzero | hpos
  · have hc : r.header.declCount = 0#w := BitVec.eq_of_toNat_eq (by rw [hzero]; exact BitVec.toNat_zero.symm)
    rw [hc, BitVec.zero_mul, BitVec.add_zero, BitVec.toNat_zero, Nat.zero_mul, Nat.add_zero]
  · obtain ⟨⟨-, hhi⟩, hat⟩ := h.decls (r.header.declCount.toNat - 1) (by omega)
    have hlt := r.header.code.stop.isLt
    have hwide : 2 ^ 32 ≤ 2 ^ w := Nat.pow_le_pow_right (by omega) hw
    have hlast : (r.header.declCount.toNat - 1) * declBytes + declBytes = r.header.declCount.toNat * declBytes := by
      rw [← Nat.succ_mul]
      congr 1
      omega
    rw [hat] at hhi
    have hmul : (r.header.declCount * word w declBytes).toNat = r.header.declCount.toNat * declBytes := by
      unfold declBytes at *
      rw [word, BitVec.toNat_mul, BitVec.toNat_ofNat, Nat.mul_mod_mod, Nat.mod_eq_of_lt (by omega)]
    rw [BitVec.toNat_add, hmul, Nat.mod_eq_of_lt (by omega)]

theorem Sound.array_code {r : Record w} (h : Sound r) {a : Nat} (hlo : r.header.decls.toNat ≤ a)
    (hhi : a < r.header.decls.toNat + r.header.declCount.toNat * declBytes) : a ∈ r.header.code.bytes := by
  have hpos : 0 < r.header.declCount.toNat := by
    rcases Nat.eq_zero_or_pos r.header.declCount.toNat with hzero | hpos
    · rw [hzero] at hhi
      omega
    · exact hpos
  obtain ⟨⟨hstart, -⟩, hzero⟩ := h.decls 0 hpos
  obtain ⟨⟨-, hstop⟩, hlast⟩ := h.decls (r.header.declCount.toNat - 1) (by omega)
  have hsum : (r.header.declCount.toNat - 1) * declBytes + declBytes = r.header.declCount.toNat * declBytes := by
    rw [← Nat.succ_mul]
    congr 1
    omega
  rw [hzero] at hstart
  rw [hlast] at hstop
  exact ⟨by omega, by omega⟩

theorem declOwner_declAt (hw : 32 ≤ w) {images : List (Record w)} (hs : ∀ r ∈ images, Sound r)
    (hp : images.Pairwise Apart) {n i : Nat} {r : Record w} (h : declImage images n = some (r, i)) :
    declOwner (declAt r.header i) images = some r := by
  induction images generalizing n with
  | nil => cases h
  | cons k images ih =>
    obtain ⟨hmem, hi⟩ := declImage_mem h
    obtain ⟨-, hat⟩ := (hs r hmem).decls i hi
    have hin : r.header.decls.toNat ≤ (declAt r.header i).toNat ∧
        (declAt r.header i).toNat < r.header.decls.toNat + r.header.declCount.toNat * declBytes := by
      have hstep : (i + 1) * declBytes ≤ r.header.declCount.toNat * declBytes := Nat.mul_le_mul_right _ hi
      rw [Nat.succ_mul] at hstep
      unfold declBytes at *
      omega
    have hsk := hs k List.mem_cons_self
    obtain ⟨hk, hp⟩ := List.pairwise_cons.mp hp
    unfold declImage at h
    split at h
    next =>
      obtain ⟨hmem', -⟩ := declImage_mem h
      cases images with
      | nil => cases hmem'
      | cons k' images =>
        -- the array of the first image is in its own code
        have hno : ¬ (k.header.decls ≤ declAt r.header i ∧
            declAt r.header i < k.header.decls + k.header.declCount * word w declBytes) := by
          rw [hsk.array hw]
          rintro ⟨hlo, hhi⟩
          have hmine := (hs r hmem).array_code hin.1 hin.2
          exact Set.disjoint_left.mp (hk r hmem').code (hsk.array_code hlo hhi) hmine
        rw [declOwner, if_neg hno]
        · exact ih (fun r hr => hs r (List.mem_cons_of_mem _ hr)) hp h
        · exact List.cons_ne_nil _ _
    next =>
      cases h
      cases images with
      | nil => rfl
      | cons k' images =>
        rw [declOwner, if_pos ((hsk.array hw).mpr hin)]
        exact List.cons_ne_nil _ _

/-- A table the boot accepts, on a board that checks the spans. Every image is sound. Where nothing translates, the
images lie apart, and a declaration is found again in the image that holds it. -/
theorem images_sound (hw : w = 32 ∨ w = 64) (t : Table w) (hp : t.publish = true) (hs : ∀ r ∈ t.images, r.bounds.spans = true) :
    (∀ r ∈ t.images, Sound r) ∧ (t.translates = false → t.images.Pairwise Apart) ∧
    ∀ n r i, declImage t.images n = some (r, i) → r ∈ t.images ∧ i < r.header.declCount.toNat ∧
      (t.translates = false → declOwner (declAt r.header i) t.images = some r) := by
  have hsound := publishFrom_sound hw hp hs
  refine ⟨hsound, fun ht => Table.apart hw ht hp hs, fun n r i h => ?_⟩
  obtain ⟨hmem, hi⟩ := declImage_mem h
  exact ⟨hmem, hi, fun ht => declOwner_declAt (by omega) hsound (Table.apart hw ht hp hs) h⟩

/-- A small board: its code memory, the kernel's memory, and the thread-local segment behind the images. -/
def board (spans : Bool) : Bounds 32 where
  buildId := 7
  spans := spans
  dataInPlace := false
  taskStart := false
  code := ⟨0x1000, 0x1400⟩
  kernelCode := ⟨0x800, 0x1000⟩
  ram := ⟨0x20000000, 0x20001000⟩
  kernelData := ⟨0x20000000, 0x20000100⟩
  kernelStacks := ⟨0x20000f00, 0x20001000⟩
  arena := ⟨0x20000800, 0x20000f00⟩
  tls := ⟨0x1300, 0x1310⟩
  tlsAlignMax := 8
  windowEncodable := none
  declsMax := 4
  prioMin := 1
  prioMax := 10
  cores := 1
  authority := 0
  stackAlign := 8
  windowsMax := 4
  linesMax := 6
  deviceOk := none
  portsOk := none
  lineOk := none
  declsMax_few := by decide

/-- An image of 128 bytes of code with one declaration, and 256 bytes of window. -/
def header (c v offset : BitVec 32) : Header 32 where
  magic := 0x474d494b
  version := 6
  size := 152
  buildId := 7
  program := c + 0x60
  codeStart := c
  codeEnd := c + 0x80
  windowStart := v
  windowSize := 0x100
  dataLoad := c
  dataStart := v
  dataEnd := v + 0x10
  bssEnd := v + 0x20
  heapStart := v + 0x20
  heapEnd := v + 0x100
  tlsTemplate := 0x1300 + offset
  tlsOffset := offset
  tlsInit := 4
  tlsTotal := 8
  tlsAlign := 4
  ctorStart := c
  ctorEnd := c
  ehFrame := 0
  start := c + 0x10
  declStart := c + 0x10
  reentTemplate := 0
  reentWidth := 0
  reentSeat := 0
  needs := 0
  needsCount := 0
  decls := c + 0x18
  declCount := 1
  stamp := c + 0x60
  initArgs := v + 0x10
  threadReturn := c + 0x10
  taskStart := 0
  casStart := 0
  casStore := 0

def memory : Memory 32 where
  byte _ := 0
  decl _ := ⟨0x40, 0, 0, 0, 0x100, 0, 0, 1, 1, 0⟩
  grant _ := ⟨0, 0, 0, 0, 0⟩

def twoImages : Table 32 where
  translates := false
  images := [⟨header 0x1000 0x20000100 0, board true, memory⟩, ⟨header 0x1080 0x20000200 8, board true, memory⟩]
  same _ := by simp

theorem images_sound_twoImages : twoImages.publish = true ∧ (∀ r ∈ twoImages.images, Sound r) ∧
    twoImages.images.Pairwise Apart := by
  have hp : twoImages.publish = true := by decide +kernel
  obtain ⟨hsound, hapart, -⟩ := images_sound (.inl rfl) twoImages hp (by simp [twoImages, board])
  exact ⟨hp, hsound, hapart rfl⟩

/-- The same image twice, where spans are not checked or where a backend translates. -/
def sameTwice (translates spans : Bool) : Table 32 where
  translates := translates
  images := [⟨header 0x1000 0x20000100 0, board spans, memory⟩, ⟨header 0x1000 0x20000100 0, board spans, memory⟩]
  same _ := by simp

/-- An image's thread-local template lies in neither its code nor its window, and images that share every byte are
accepted where spans are not checked and where a backend translates. -/
theorem accepted_apart_from_image :
    (twoImages.publish = true ∧ ∀ r ∈ twoImages.images, r.header.tlsInit ≠ 0 ∧ ¬ r.header.code.Holds r.header.tlsTemplate 1 ∧
      ¬ r.header.window.Holds r.header.tlsTemplate 1) ∧
    ((sameTwice false false).publish = true ∧ (sameTwice true true).publish = true ∧
      ∀ translates spans, ¬ (sameTwice translates spans).images.Pairwise Apart) := by
  refine ⟨⟨by decide +kernel, ?_⟩, by decide +kernel, by decide +kernel, ?_⟩
  · simp only [twoImages, List.mem_cons, List.not_mem_nil, or_false]
    rintro r (rfl | rfl)
    · exact ⟨by decide, by rintro ⟨-, hhi⟩; revert hhi; decide, by rintro ⟨hlo, -⟩; revert hlo; decide⟩
    · exact ⟨by decide, by rintro ⟨-, hhi⟩; revert hhi; decide, by rintro ⟨hlo, -⟩; revert hlo; decide⟩
  · intro translates spans hpair
    have hcode := ((List.pairwise_cons.mp hpair).1 _ List.mem_cons_self).code
    have hin : 0x1000 ∈ (header 0x1000 0x20000100 0).code.bytes := ⟨by decide, by decide⟩
    exact Set.disjoint_left.mp hcode hin hin

end KickOS.Image
