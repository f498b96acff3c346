import KickOS.Fmt.Directive

/-! `kvsnprintf` against C: it is right on every format with its arguments, `%zd` and `%zi` of a 32-bit target apart. -/

namespace KickOS.Fmt

variable {t : Target} {m : Memory t}

/-! ### Numbers -/

theorem digit_eq {d : Nat} (h : d < 16) : digit d = d.digitChar := by
  interval_cases d <;> rfl

theorem reverse_tmpOf {base : Nat} (hb : 1 < base) (hle : base ≤ 16) (v : Nat) (hv : v ≠ 0) :
    (tmpOf base v).reverse = Nat.toDigits base v := by
  induction v using Nat.strong_induction_on with
  | _ v ih =>
    have hlast : digit (v % base) = (v % base).digitChar := digit_eq ((Nat.mod_lt v (by omega)).trans_le hle)
    rw [tmpOf, dif_neg (by omega), List.reverse_cons, hlast]
    rcases Nat.lt_or_ge v base with hlt | hge
    · rw [Nat.div_eq_of_lt hlt, tmpOf, dif_pos (.inl rfl), Nat.toDigits_of_lt_base hlt, Nat.mod_eq_of_lt hlt]
      rfl
    · rw [Nat.toDigits_of_base_le hb hge, ih _ (Nat.div_lt_self (by omega) hb) (Nat.div_pos hge (by omega)).ne']

theorem emitUint_eq {base : Nat} (hb : 1 < base) (hle : base ≤ 16) (s : Sink) (v : Nat) :
    emitUint t s v base = s.putAll t (Nat.toDigits base v) := by
  unfold emitUint
  split
  next h => rw [h, Nat.toDigits_zero]
  next h => rw [reverse_tmpOf hb hle v h]

theorem emitInt_eq (s : Sink) (v : Int) : emitInt t s v = s.putAll t (decimal v) := by
  unfold emitInt decimal
  split
  next h =>
    have habs : (-(v + 1)).toNat + 1 = v.natAbs := by omega
    rw [emitUint_eq (by decide) (by decide), habs]
    rfl
  next h =>
    have habs : v.toNat = v.natAbs := by omega
    rw [emitUint_eq (by decide) (by decide), habs]

/-! ### Directives -/

/-- `longness` behind the modifier. -/
def Len.longness : Len → Nat
  | .none => 0
  | .l => 1
  | .ll => 2
  | .z => 3

def Item.run (m : Memory t) (s : Sink) (ap : VaList) : Item → Sink × VaList
  | .ordinary c _ => (s.put t c, ap)
  | .percent => convert m 0 '%' s ap
  | .str _ => convert m 0 's' s ap
  | .chr _ => convert m 0 'c' s ap
  | .ptr _ => convert m 0 'p' s ap
  | .int conv len _ => convert m len.longness conv.char s ap

theorem scan_item (it : Item) (fmt : List Char) (s : Sink) (ap : VaList) :
    scan m (it.text ++ fmt) .text s ap = scan m fmt .text (it.run m s ap).1 (it.run m s ap).2 := by
  cases it with
  | ordinary c h => exact if_neg h.1
  | percent => rfl
  | str p => rfl
  | chr v => rfl
  | ptr p => rfl
  | int conv len v => cases len <;> cases conv <;> rfl

/-- The type the code reads for an item. -/
def Item.readTy : Item → Option Ty
  | .int .d len _ | .int .i len _ => some (signedTy len.longness)
  | .int .u len _ | .int .x len _ => some (unsignedTy len.longness)
  | it => it.ty

/-- A `%zd` or a `%zi`. -/
def Item.SignedSize (it : Item) : Prop := ∃ v, it = .int .d .z v ∨ it = .int .i .z v

theorem readTy_eq {it : Item} (h : ¬ it.SignedSize) : it.readTy = it.ty := by
  cases it with
  | int conv len v =>
    cases len with
    | none => cases conv <;> rfl
    | l => cases conv <;> rfl
    | ll => cases conv <;> rfl
    | z =>
      cases conv with
      | d => exact absurd ⟨v, .inl rfl⟩ h
      | i => exact absurd ⟨v, .inr rfl⟩ h
      | u => rfl
      | x => rfl
  | _ => rfl

/-- The argument list behind an argument of the given type. -/
def Memory.skip (m : Memory t) (ap : VaList) : Option Ty → VaList
  | none => ap
  | some ty => (m.take ap ty).2

theorem run_ap (it : Item) (s : Sink) (ap : VaList) : (it.run m s ap).2 = m.skip ap it.readTy := by
  cases it with
  | int conv len v => cases len <;> cases conv <;> rfl
  | _ => rfl

theorem take_longLong (hw : t.wide) (ap : VaList) : m.take ap .longLong = m.take ap .size := by
  simp [Memory.take, Memory.vaArg, Target.width, Target.bits, hw]

theorem signed_longLong (hw : t.wide) (v : Nat) : t.signed .longLong v = t.signed .size v := by
  have hbits : t.bits = 64 := if_pos hw
  unfold Target.signed Target.width
  rw [hbits]

theorem putAll_append (s : Sink) (xs ys : List Char) : s.putAll t (xs ++ ys) = (s.putAll t xs).putAll t ys := List.foldl_append

section Convert

variable (longness : Nat) (s : Sink) (ap : VaList)

theorem convert_str : convert m 0 's' s ap =
    (emitStr t s (if (m.take ap .pointer).1 = 0 then none else some (m.string (m.take ap .pointer).1)),
      (m.take ap .pointer).2) := rfl

theorem convert_ptr : convert m 0 'p' s ap = (s.putAll t (['0', 'x'] ++ Nat.toDigits 16 (m.take ap .pointer).1),
    (m.take ap .pointer).2) := by
  rw [putAll_append, ← emitUint_eq (by decide) (by decide)]
  rfl

theorem convert_signed {conv : Conv} (hc : conv = .d ∨ conv = .i) : convert m longness conv.char s ap =
    (s.putAll t (decimal (t.signed (signedTy longness) (m.take ap (signedTy longness)).1)),
      (m.take ap (signedTy longness)).2) := by
  rw [← emitInt_eq]
  rcases hc with rfl | rfl
  · rfl
  · rfl

theorem convert_u : convert m longness 'u' s ap =
    (s.putAll t (Nat.toDigits 10 (m.take ap (unsignedTy longness)).1), (m.take ap (unsignedTy longness)).2) := by
  rw [← emitUint_eq (by decide) (by decide)]
  rfl

theorem convert_x : convert m longness 'x' s ap =
    (s.putAll t (Nat.toDigits 16 (m.take ap (unsignedTy longness)).1), (m.take ap (unsignedTy longness)).2) := by
  rw [← emitUint_eq (by decide) (by decide)]
  rfl

end Convert

theorem unsignedTy_longness (len : Len) : unsignedTy len.longness = len.ty := by
  cases len <;> rfl

theorem take_signedTy {len : Len} (hok : t.wide ∨ len ≠ .z) (ap : VaList) :
    m.take ap (signedTy len.longness) = m.take ap len.ty ∧ ∀ v, t.signed (signedTy len.longness) v = t.signed len.ty v := by
  cases len with
  | none => exact ⟨rfl, fun _ => rfl⟩
  | l => exact ⟨rfl, fun _ => rfl⟩
  | ll => exact ⟨rfl, fun _ => rfl⟩
  | z =>
    have hw : t.wide := hok.resolve_right fun h => h rfl
    exact ⟨take_longLong hw ap, signed_longLong hw⟩

theorem run_eq {it : Item} {ap : VaList} (hok : t.wide ∨ ¬ it.SignedSize)
    (hv : ∀ ty, it.ty = some ty → (m.take ap ty).1 = it.value) (hs : ∀ p, it = .str p → p ≠ 0) (s : Sink) :
    it.run m s ap = (s.putAll t (it.print m), m.skip ap it.ty) := by
  cases it with
  | ordinary c h => rfl
  | percent => rfl
  | str p =>
    have hp : (m.take ap .pointer).1 = p := hv _ rfl
    dsimp only [Item.run]
    rw [convert_str, hp, if_neg (hs p rfl)]
    rfl
  | chr v =>
    have hv : (m.take ap .int).1 = v := hv _ rfl
    rw [← hv]
    rfl
  | ptr p =>
    have hp : (m.take ap .pointer).1 = p := hv _ rfl
    dsimp only [Item.run]
    rw [convert_ptr, hp]
    rfl
  | int conv len v =>
    have harg : (m.take ap len.ty).1 = v := hv _ rfl
    have hsigned (hc : conv = .d ∨ conv = .i) : convert m len.longness conv.char s ap =
        (s.putAll t (decimal (t.signed len.ty v)), (m.take ap len.ty).2) := by
      have hlen : t.wide ∨ len ≠ .z := hok.imp_right fun h hz => h ⟨v, by rw [hz]; rcases hc with rfl | rfl <;> simp⟩
      obtain ⟨htake, hsame⟩ := take_signedTy (m := m) hlen ap
      rw [convert_signed _ _ _ hc, htake, hsame, harg]
    cases conv with
    | d => exact hsigned (.inl rfl)
    | i => exact hsigned (.inr rfl)
    | u =>
      dsimp only [Item.run, Conv.char]
      rw [convert_u, unsignedTy_longness, harg]
      rfl
    | x =>
      dsimp only [Item.run, Conv.char]
      rw [convert_x, unsignedTy_longness, harg]
      rfl

/-! ### Formats -/

theorem skip_widths (ap : VaList) (ty : Option Ty) : (m.skip ap ty).widths = ap.widths ++ (ty.map t.width).toList := by
  cases ty with
  | none => exact (List.append_nil _).symm
  | some ty => rfl

theorem laid_cons {it : Item} {items : List Item} {ap : VaList} {last : Nat} (h : Laid m ap.next (it :: items) last) :
    (∀ ty, it.ty = some ty → (m.take ap ty).1 = it.value) ∧ (∀ p, it = .str p → p ≠ 0) ∧
      Laid m (m.skip ap it.ty).next items last := by
  unfold Laid at h
  cases hty : it.ty with
  | none =>
    rw [hty] at h
    refine ⟨fun ty h0 => absurd h0 (by simp), fun p hp => ?_, h⟩
    rw [hp] at hty
    exact absurd hty (by simp [Item.ty])
  | some ty =>
    rw [hty] at h
    obtain ⟨harg, hstr, hrest⟩ := h
    refine ⟨fun ty' h' => ?_, hstr, hrest⟩
    cases h'
    exact harg

theorem scan_eq {items : List Item} (hok : t.wide ∨ ∀ it ∈ items, ¬ it.SignedSize) {last : Nat} (s : Sink) (ap : VaList)
    (hl : Laid m ap.next items last) : scan m (items.flatMap Item.text) .text s ap =
      (s.putAll t (items.flatMap (Item.print m)), ⟨last, ap.widths ++ items.filterMap fun it => it.ty.map t.width⟩) := by
  induction items generalizing s ap with
  | nil =>
    cases hl
    simp [scan, Sink.putAll]
  | cons it items ih =>
    obtain ⟨harg, hstr, hrest⟩ := laid_cons hl
    have hit : t.wide ∨ ¬ it.SignedSize := hok.imp_right fun h => h it List.mem_cons_self
    have htail : t.wide ∨ ∀ it ∈ items, ¬ it.SignedSize := hok.imp_right fun h it hi => h it (List.mem_cons_of_mem _ hi)
    rw [List.flatMap_cons, scan_item, run_eq hit harg hstr, ih htail _ _ hrest, skip_widths, List.flatMap_cons, putAll_append,
      List.filterMap_cons]
    cases it.ty with
    | none => simp
    | some ty => simp

theorem scan_widths (items : List Item) (s : Sink) (ap : VaList) :
    (scan m (items.flatMap Item.text) .text s ap).2.widths = ap.widths ++ items.filterMap fun it => it.readTy.map t.width := by
  induction items generalizing s ap with
  | nil => simp [scan]
  | cons it items ih =>
    rw [List.flatMap_cons, scan_item, ih, run_ap, skip_widths, List.filterMap_cons]
    cases it.readTy with
    | none => simp
    | some ty => simp

theorem sum_filterMap (items : List Item) (f : Item → Option Nat) :
    (items.filterMap f).sum = (items.map fun it => (f it).getD 0).sum := by
  induction items with
  | nil => rfl
  | cons it items ih =>
    rw [List.filterMap_cons, List.map_cons, List.sum_cons, ← ih]
    cases f it with
    | none => exact (Nat.zero_add _).symm
    | some n => rfl

theorem widths_ne {items : List Item} (hw : t.wide = false) {it : Item} (hi : it ∈ items) (hz : it.SignedSize) :
    (items.filterMap fun it => it.readTy.map t.width) ≠ items.filterMap fun it => it.ty.map t.width := by
  have hbits : t.bits = 32 := if_neg (by simp [hw])
  have hwide {it : Item} (hz : it.SignedSize) : (it.ty.map t.width).getD 0 < (it.readTy.map t.width).getD 0 := by
    have h32 : t.bits < 64 := by omega
    obtain ⟨v, rfl | rfl⟩ := hz
    · exact h32
    · exact h32
  intro heq
  -- the widths the code reads have a greater sum
  have hsum := congrArg List.sum heq
  rw [sum_filterMap, sum_filterMap] at hsum
  refine (List.sum_lt_sum _ _ (fun it _ => ?_) ⟨it, hi, hwide hz⟩).ne' hsum
  by_cases h : it.SignedSize
  · exact (hwide h).le
  · rw [readTy_eq h]

/-! ### The buffer -/

section Buffer

variable {s : Sink} {out : List Char}

theorem putAll_size (s : Sink) (out : List Char) : (s.putAll t out).size = s.size := by
  induction out generalizing s with
  | nil => rfl
  | cons c out ih => exact ih (s.put t c)

theorem putAll_eq (h : s.total + out.length < t.span) :
    (s.putAll t out).total = s.total + out.length ∧
    (s.putAll t out).stored = s.stored ++ (out.take (s.size - 1 - s.total)).zipIdx s.total := by
  induction out generalizing s with
  | nil => simp [Sink.putAll]
  | cons c out ih =>
    rw [List.length_cons] at h
    have htotal : (s.put t c).total = s.total + 1 := Nat.mod_eq_of_lt (by omega)
    have hnext : (s.put t c).total + out.length < t.span := by omega
    have hput : s.putAll t (c :: out) = (s.put t c).putAll t out := rfl
    obtain ⟨h1, h2⟩ := ih hnext
    rw [hput, h1, h2, htotal, List.length_cons]
    refine ⟨by omega, ?_⟩
    have hsize : (s.put t c).size = s.size := rfl
    rw [hsize]
    dsimp only [Sink.put]
    split
    next hfits =>
      have hleft : s.size - 1 - s.total = (s.size - 1 - (s.total + 1)) + 1 := by omega
      rw [hleft, List.take_succ_cons, List.zipIdx_cons, List.append_assoc]
      rfl
    next hfull =>
      have h0 : s.size - 1 - s.total = 0 := by omega
      have h1 : s.size - 1 - (s.total + 1) = 0 := by omega
      rw [h0, h1, List.take_zero, List.take_zero]
      rfl

theorem stored_grows (s : Sink) (out : List Char) : ∃ more, (s.putAll t out).stored = s.stored ++ more := by
  induction out generalizing s with
  | nil => exact ⟨[], (List.append_nil _).symm⟩
  | cons c out ih =>
    obtain ⟨more, hmore⟩ := ih (s.put t c)
    have hput : s.putAll t (c :: out) = (s.put t c).putAll t out := rfl
    rw [hput, hmore]
    dsimp only [Sink.put]
    split
    · exact ⟨(c, s.total) :: more, List.append_assoc ..⟩
    · exact ⟨more, rfl⟩

theorem stored_small (hs : s.size ≤ 1) (out : List Char) : (s.putAll t out).stored = s.stored := by
  induction out generalizing s with
  | nil => rfl
  | cons c out ih =>
    have hput : s.putAll t (c :: out) = (s.put t c).putAll t out := rfl
    have hsize : (s.put t c).size ≤ 1 := hs
    rw [hput, ih hsize]
    exact if_neg (by omega)

theorem close_fits {size : Nat} (h : out.length < t.span) : (({ size := size } : Sink).putAll t out).close = fitted size out := by
  have hlt : ({ size := size } : Sink).total + out.length < t.span := by simpa using h
  obtain ⟨h1, h2⟩ := putAll_eq hlt
  unfold Sink.close fitted
  rw [putAll_size, h1, h2]
  dsimp only
  rw [Nat.zero_add, List.nil_append, Nat.sub_zero]
  rcases Nat.eq_zero_or_pos size with rfl | hpos
  · rfl
  · rw [if_pos hpos, if_neg hpos.ne']
    congr 3
    split <;> omega

theorem close_small {size : Nat} (h : size ≤ 1) : (({ size := size } : Sink).putAll t out).close = fitted size out := by
  unfold Sink.close fitted
  rw [putAll_size, stored_small h]
  dsimp only
  rcases Nat.eq_zero_or_pos size with rfl | hpos
  · rfl
  · have hone : size = 1 := by omega
    subst hone
    rw [if_pos hpos, if_neg hpos.ne']
    simp

theorem close_wraps {size : Nat} (hsize : size < t.span) (h2 : 2 ≤ size) (h : t.span ≤ out.length) :
    (({ size := size } : Sink).putAll t out).close ≠ fitted size out := by
  -- the characters in front of the last one the count holds, that one, and those behind it
  obtain ⟨pre, c, rest, rfl, hpre⟩ : ∃ pre c rest, out = pre ++ c :: rest ∧ pre.length = t.span - 1 := by
    have hlt : t.span - 1 < out.length := by omega
    refine ⟨out.take (t.span - 1), out[t.span - 1], out.drop (t.span - 1 + 1), ?_, ?_⟩
    · rw [List.getElem_cons_drop, List.take_append_drop]
    · rw [List.length_take]
      omega
  have hlt : ({ size := size } : Sink).total + pre.length < t.span := by
    dsimp only
    omega
  obtain ⟨h1, h3⟩ := putAll_eq hlt
  obtain ⟨s, hs⟩ : ∃ s, s = ({ size := size } : Sink).putAll t pre := ⟨_, rfl⟩
  have hsz : s.size = size := by rw [hs, putAll_size]
  rw [← hs] at h1 h3
  dsimp only at h1 h3
  rw [Nat.zero_add] at h1
  rw [List.nil_append, Nat.sub_zero] at h3
  -- the count wraps to 0 and the last character is not stored
  have hlast : s.put t c = { s with total := 0 } := by
    unfold Sink.put
    rw [if_neg (by omega), h1, hpre, Nat.sub_add_cancel (by omega), Nat.mod_self]
  have htake : (pre ++ c :: rest).take (size - 1) = pre.take (size - 1) := List.take_append_of_le_length (by omega)
  have hput : ({ size := size } : Sink).putAll t (pre ++ c :: rest) = ({ s with total := 0 } : Sink).putAll t rest := by
    rw [putAll_append, ← hs, ← hlast]
    rfl
  have hfit : fitted size (pre ++ c :: rest) = s.stored ++ [('\x00', size - 1)] := by
    unfold fitted
    rw [if_neg (by omega), htake, ← h3, List.length_append, min_eq_right (by omega)]
  rw [hput, hfit]
  unfold Sink.close
  rw [putAll_size, if_pos (by dsimp only; omega)]
  cases rest with
  | nil =>
    intro heq
    have hplace := List.append_cancel_left heq
    simp only [Sink.putAll, List.foldl_nil, hsz, List.cons.injEq, Prod.mk.injEq, true_and, and_true] at hplace
    rw [if_neg (by omega)] at hplace
    omega
  | cons c' rest =>
    -- another character at the start of the buffer
    have hagain : (({ s with total := 0 } : Sink).put t c').stored = s.stored ++ [(c', 0)] := if_pos (by dsimp only; omega)
    obtain ⟨more, hmore⟩ := stored_grows (t := t) (({ s with total := 0 } : Sink).put t c') rest
    have hcons : ({ s with total := 0 } : Sink).putAll t (c' :: rest) =
        (({ s with total := 0 } : Sink).put t c').putAll t rest := rfl
    intro heq
    have hlen := congrArg List.length heq
    rw [hcons, hmore, hagain] at hlen
    simp only [List.length_append, List.length_cons, List.length_nil] at hlen
    omega

end Buffer

/-! ### The call -/

theorem span_ge (t : Target) : 2 ^ 32 ≤ t.span := by
  unfold Target.span Target.bits
  split
  · exact Nat.pow_le_pow_right (by decide) (by decide)
  · exact le_rfl

theorem toInt_total {n : Nat} (h : n < 2 ^ 31) : (BitVec.ofNat 32 n).toInt = n := by
  rw [BitVec.toInt_eq_toNat_of_lt, BitVec.toNat_ofNat, Nat.mod_eq_of_lt (by omega)]
  rw [BitVec.toNat_ofNat, Nat.mod_eq_of_lt (by omega)]
  omega

section Call

variable {size next last : Nat} {items : List Item}

/-- A call is right exactly where no signed size is read on a 32-bit target and the count holds the string (or the
buffer holds at most the NUL). -/
theorem kvsnprintf_correct_iff (hl : Laid m next items last) (hsize : size < t.span) :
    Correct m size next last items ↔
      (t.wide ∨ ∀ it ∈ items, ¬ it.SignedSize) ∧ ((items.flatMap (Item.print m)).length < t.span ∨ size ≤ 1) := by
  constructor
  · intro hc
    have hok : t.wide ∨ ∀ it ∈ items, ¬ it.SignedSize := by
      by_contra hno
      obtain ⟨hw, hall⟩ := not_or.1 hno
      obtain ⟨it, hi, hz⟩ := not_forall₂.1 hall
      have hread : (kvsnprintf m size (items.flatMap Item.text) next).ap.widths = items.filterMap fun it =>
          it.readTy.map t.width :=
        scan_widths items _ _
      exact widths_ne (by simpa using hw) hi (not_not.1 hz) (hread.symm.trans hc.widths)
    refine ⟨hok, ?_⟩
    by_contra hno
    obtain ⟨hlong, hbig⟩ := not_or.1 hno
    have hstored := hc.stored
    unfold kvsnprintf at hstored
    rw [scan_eq hok _ _ hl] at hstored
    exact close_wraps hsize (by omega) (by omega) hstored
  · rintro ⟨hok, hfits⟩
    have hscan := scan_eq hok { size := size } { next := next } hl
    have hclose : (({ size := size } : Sink).putAll t (items.flatMap (Item.print m))).close =
        fitted size (items.flatMap (Item.print m)) := hfits.elim close_fits close_small
    refine ⟨?_, ?_, ?_, fun hint => ?_⟩
    · unfold kvsnprintf
      rw [hscan]
      exact hclose
    · unfold kvsnprintf
      rw [hscan]
      rfl
    · unfold kvsnprintf
      rw [hscan]
    · have hspan := span_ge t
      have hlt : ({ size := size } : Sink).total + (items.flatMap (Item.print m)).length < t.span := by
        dsimp only
        omega
      unfold kvsnprintf
      rw [hscan]
      dsimp only
      rw [(putAll_eq hlt).1]
      dsimp only
      rw [Nat.zero_add]
      exact toInt_total hint

end Call

/-- A 32-bit target with 64-bit arguments at even slots. -/
def target32 : Target := ⟨false, true, false⟩

/-- Two arguments: a 7, and a -1 of 64 bits. -/
def twoArgs : Memory target32 := ⟨fun i => if i = 0 then 7#32 else 0xffffffff#32, fun _ => []⟩

/-- `%zu:%lld` with its arguments. -/
def twoItems : List Item := [.int .u .z 7, .ordinary ':' (by decide), .int .d .ll (2 ^ 64 - 1)]

theorem kvsnprintf_correct_iff_two : Laid twoArgs 0 twoItems 4 ∧ Correct twoArgs 4 0 4 twoItems := by
  have hl : Laid twoArgs 0 twoItems 4 := ⟨rfl, fun p hp => absurd hp (by simp), rfl, fun p hp => absurd hp (by simp), rfl⟩
  refine ⟨hl, (kvsnprintf_correct_iff hl (by decide)).2 ⟨.inr fun it hi => ?_, .inl (by decide +kernel)⟩⟩
  rintro ⟨v, rfl | rfl⟩
  · simp [twoItems] at hi
  · simp [twoItems] at hi

/-- `%zd` with its argument, in front of another slot. -/
theorem signed_size_read_wide : Laid twoArgs 0 [.int .d .z 7] 1 ∧ ¬ Correct twoArgs 24 0 1 [.int .d .z 7] := by
  refine ⟨⟨rfl, fun p hp => absurd hp (by simp), rfl⟩, fun hc => ?_⟩
  have hread : (kvsnprintf twoArgs 24 ([Item.int .d .z 7].flatMap Item.text) 0).ap.widths = [64] :=
    scan_widths (m := twoArgs) [.int .d .z 7] { size := 24 } { next := 0 }
  have hown := hread.symm.trans hc.widths
  exact absurd hown (by decide)

end KickOS.Fmt
