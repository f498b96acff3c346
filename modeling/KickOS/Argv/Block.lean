import KickOS.Argv.Reads

/-! The second pass stays in the block, whatever has become of the vector and the strings since the first. -/

namespace KickOS.Argv
open Range Lib Buffer

variable {w n : Nat} {cfg : Config} {c : Caller w n} {m : World w} {ord : Order w} {a : ArgBlock w} {k : Nat}
    {va block : BitVec w} {b b' : Nat → BitVec 8} {io io' : Io w}

/-! ### The measure -/

theorem measure_spec (c : Caller w n) (m : World w) (ord : Order w) (vector : BitVec w) (fuel argc used : Nat)
    (io : Io w) (hu : used ≤ cfg.argvMax) (ha : argc ≤ used) :
    Reads c io (measure cfg c m ord vector fuel argc used io).1 ∧
      ∀ r, (measure cfg c m ord vector fuel argc used io).2 = .ok r → r.1 ≤ r.2 ∧ r.2 ≤ cfg.argvMax := by
  induction fuel generalizing argc used io with
  | zero => exact ⟨.refl c io, fun r h => by cases h⟩
  | succ fuel ih =>
    have hslot : Reads c io (slotIn c m ord vector argc io).1 := slotIn_reads
    unfold measure
    split
    next io₁ heq =>
      rw [heq] at hslot
      exact ⟨hslot, fun r h => by cases h⟩
    next io₁ su heq =>
      rw [heq] at hslot
      split
      · refine ⟨hslot, ?_⟩
        intro r hr
        cases hr
        exact ⟨ha, hu⟩
      · split
        · exact ⟨hslot, fun r h => by cases h⟩
        · have hmax := cfg.argvMax_le
          have hlen := stringLen_reads c m none su (by omega : cfg.argvMax - used ≤ 65535) io₁
          split
          next io₂ e hstr =>
            rw [hstr] at hlen
            exact ⟨hslot.trans hlen.1, fun r h => by cases h⟩
          next io₂ len hstr =>
            rw [hstr] at hlen
            obtain ⟨hread, hok⟩ := hlen
            have hlt := (hok len rfl).1
            obtain ⟨h1, h2⟩ := ih (argc + 1) (used + len + 1) io₂ (by omega) (by omega)
            exact ⟨(hslot.trans hread).trans h1, h2⟩

/-- What a successful `argv_in` says of the block. -/
structure Measured (cfg : Config) (a : ArgBlock w) : Prop where
  bytes_le : a.bytes ≤ cfg.argvMax
  name : a.vector = 0 → a.argc = 1 ∧ a.bytes = a.name.length + 1

theorem argvIn_spec (cfg : Config) (c : Caller w n) (m : World w) (ord : Order w) (argv : BitVec w)
    (name : List (BitVec 8)) (decl : Nat) (io : Io w) : Reads c io (argvIn cfg c m ord argv name decl io).1 ∧
    ∀ a, (argvIn cfg c m ord argv name decl io).2 = .ok a → Measured cfg a := by
  have hmax := cfg.argvMax_le
  unfold argvIn
  split
  · split
    · exact ⟨.refl c io, fun a h => by cases h⟩
    · refine ⟨.refl c io, ?_⟩
      intro a ha
      cases ha
      have hmod : (name.length + 1) % 2 ^ 16 = name.length + 1 := Nat.mod_eq_of_lt (by omega)
      exact ⟨by simp only [hmod]; omega, fun _ => ⟨rfl, hmod⟩⟩
  next hne =>
    split
    · exact ⟨.refl c io, fun a h => by cases h⟩
    · obtain ⟨hread, hok⟩ := measure_spec c m ord argv (cfg.maxArgc + 1) 0 0 io (Nat.zero_le cfg.argvMax) le_rfl
      split
      next heq =>
        rw [heq] at hread
        exact ⟨hread, fun a h => by cases h⟩
      next io₁ argc used heq =>
        rw [heq] at hread hok
        refine ⟨hread, ?_⟩
        intro a ha
        cases ha
        obtain ⟨-, hu⟩ := hok (argc, used) rfl
        exact ⟨(Nat.mod_le _ _).trans hu, fun h0 => absurd h0 hne⟩

/-! ### The stores -/

theorem strings_eq (a : ArgBlock w) : a.strings = (4 + a.argc) * (w / 8) := rfl

/-- The words before `3 + i` and the bytes of the strings before `pos` are kept, and everything outside the block. -/
def Kept (a : ArgBlock w) (k i pos : Nat) (b b' : Nat → BitVec 8) : Prop :=
  ∀ p, p < k + (3 + i) * (w / 8) ∨ k + a.strings ≤ p → p < k + a.strings + pos ∨ k + a.strings + a.bytes ≤ p → b' p = b p

theorem Kept.trans {b'' : Nat → BitVec 8} {i pos : Nat} (h : Kept a k i pos b b') (h' : Kept a k i pos b' b'') :
    Kept a k i pos b b'' :=
  fun p h1 h2 => (h' p h1 h2).trans (h p h1 h2)

theorem Kept.mono {i pos i' pos' : Nat} (h : Kept a k i' pos' b b') (hi : i ≤ i') (hp : pos ≤ pos') : Kept a k i pos b b' := by
  have hmul : (3 + i) * (w / 8) ≤ (3 + i') * (w / 8) := Nat.mul_le_mul_right _ (by omega)
  intro p h1 h2
  exact h p (by omega) (by omega)

theorem kept_storeWord {i pos : Nat} (hi : i ≤ a.argc) (x : BitVec w) : Kept a k i pos b (storeWord ord k b (3 + i) x) := by
  obtain ⟨-, hout⟩ := putAll_spec b (k + (3 + i) * (w / 8)) (ord.split x)
  have hmul : (3 + i + 1) * (w / 8) ≤ (4 + a.argc) * (w / 8) := Nat.mul_le_mul_right _ (by omega)
  rw [Nat.succ_mul] at hmul
  intro p h1 _
  refine hout p ?_
  rw [ord.length_split]
  rw [strings_eq] at h1
  omega

theorem stands_storeWord (ord : Order w) (k : Nat) (b : Nat → BitVec 8) (i : Nat) (x : BitVec w) :
    Stands (storeWord ord k b i x) (k + i * (w / 8)) (ord.split x) :=
  (putAll_spec b _ _).1

theorem kept_putAll {i pos : Nat} {s : List (BitVec 8)} (hs : pos + s.length ≤ a.bytes) :
    Kept a k i pos b (putAll b (k + a.strings + pos) s) := by
  obtain ⟨-, hout⟩ := putAll_spec b (k + a.strings + pos) s
  intro p _ h2
  exact hout p (by omega)

theorem storeString_before {pos p : Nat} {s : List (BitVec 8)} (hp : p < k + a.strings + pos) :
    storeString a k b pos s p = b p := by
  obtain ⟨-, hout⟩ := putAll_spec b (k + a.strings + pos) s
  unfold storeString
  rw [put_other (by omega), hout p (by omega)]

theorem kept_storeString {i pos : Nat} {s : List (BitVec 8)} (hs : pos + s.length < a.bytes) :
    Kept a k i pos b (storeString a k b pos s) := by
  refine (kept_putAll hs.le).trans ?_
  intro p _ h2
  exact put_other (by omega)

theorem stands_storeString (b : Nat → BitVec 8) (pos : Nat) (s : List (BitVec 8)) :
    Stands (storeString a k b pos s) (k + a.strings + pos) (s ++ [0]) := by
  obtain ⟨hst, -⟩ := putAll_spec b (k + a.strings + pos) s
  refine stands_append.2 ⟨?_, put_same, trivial⟩
  exact hst.congr fun p _ h2 => put_other (by omega)

/-- The pointers from the `i`-th on and their strings from `pos` on, with the null pointer behind them. -/
def Laid (ord : Order w) (a : ArgBlock w) (k : Nat) (va : BitVec w) (b : Nat → BitVec 8) :
    Nat → Nat → List (List (BitVec 8)) → Prop
  | i, _, [] => Stands b (k + (3 + i) * (w / 8)) (ord.split 0)
  | i, pos, s :: strs =>
    Stands b (k + (3 + i) * (w / 8)) (ord.split (va + BitVec.ofNat w (a.strings + pos))) ∧
      Stands b (k + a.strings + pos) (s ++ [0]) ∧ Laid ord a k va b (i + 1) (pos + s.length + 1) strs

/-- The bytes of strings with their NULs. -/
def total (strs : List (List (BitVec 8))) : Nat := (strs.map fun s => s.length + 1).sum

theorem laid_cons (b : Nat → BitVec 8) {i pos : Nat} {s : List (BitVec 8)} {strs : List (List (BitVec 8))}
    {b₁ b₂ b₃ : Nat → BitVec 8} (hi : i < a.argc) (h1 : b₁ =
    storeWord ord k b (3 + i) (va + BitVec.ofNat w (a.strings + pos))) (h2 : b₂ = storeString a k b₁ pos s)
    (h3 : Kept a k (i + 1) (pos + s.length + 1) b₂ b₃)
    (hl : Laid ord a k va b₃ (i + 1) (pos + s.length + 1) strs) : Laid ord a k va b₃ i pos (s :: strs) := by
  subst h1 h2
  have hmul : (3 + (i + 1)) * (w / 8) = (3 + i) * (w / 8) + w / 8 := by ring
  have hle : (3 + (i + 1)) * (w / 8) ≤ (4 + a.argc) * (w / 8) := Nat.mul_le_mul_right _ (by omega)
  refine ⟨?_, ?_, hl⟩
  · refine (stands_storeWord ord k b (3 + i) _).congr ?_
    intro p _ hp
    rw [ord.length_split] at hp
    have hstr : p < k + a.strings := by
      rw [strings_eq]
      omega
    rw [h3 p (by omega) (by omega)]
    exact storeString_before (by omega)
  · refine (stands_storeString (storeWord ord k b (3 + i) (va + BitVec.ofNat w (a.strings + pos))) pos s).congr ?_
    intro p hp1 hp2
    rw [List.length_append, List.length_singleton] at hp2
    exact h3 p (by omega) (by omega)

/-! ### The second pass -/

/-- What the pass leaves, from string `i` on. -/
structure Wrote (c : Caller w n) (ord : Order w) (a : ArgBlock w) (k : Nat) (va : BitVec w) (left i pos : Nat)
    (b : Nat → BitVec 8) (io : Io w) (r : Io w × (Nat → BitVec 8) × Option Err) : Prop where
  reads : Reads c io r.1
  kept : Kept a k i pos b r.2.1
  laid : r.2.2 = none → ∃ strs, strs.length = left ∧ pos + total strs ≤ a.bytes ∧ Laid ord a k va r.2.1 i pos strs

theorem Wrote.failed {left i pos : Nat} {e : Err} (hr : Reads c io io') (hk : Kept a k i pos b b') :
    Wrote c ord a k va left i pos b io (io', b', some e) :=
  ⟨hr, hk, fun h => by cases h⟩

theorem Wrote.cons {left i pos : Nat} {s : List (BitVec 8)} {r : Io w × (Nat → BitVec 8) × Option Err} (hi : i < a.argc)
    (hs : pos + s.length < a.bytes) (hr : Reads c io io')
    (h : Wrote c ord a k va left (i + 1) (pos + s.length + 1)
      (storeString a k (storeWord ord k b (3 + i) (va + BitVec.ofNat w (a.strings + pos))) pos s) io' r) :
    Wrote c ord a k va (left + 1) i pos b io r := by
  refine ⟨hr.trans h.reads, ?_, ?_⟩
  · exact ((kept_storeWord hi.le _).trans (kept_storeString hs)).trans (h.kept.mono (by omega) (by omega))
  · intro hok
    obtain ⟨strs, hlen, hsum, hl⟩ := h.laid hok
    refine ⟨s :: strs, by rw [List.length_cons, hlen], ?_, laid_cons b hi rfl rfl h.kept hl⟩
    unfold total at hsum ⊢
    rw [List.map_cons, List.sum_cons]
    omega

theorem writeFrom_spec (c : Caller w n) (m : World w) (ord : Order w) (k : Nat) (va : BitVec w) (hb : a.bytes ≤ 65535)
    (left i pos : Nat) (b : Nat → BitVec 8) (io : Io w) (hi : i + left = a.argc) (hpos : pos ≤ a.bytes)
    (hname : a.vector = 0 → pos + left * (a.name.length + 1) ≤ a.bytes) :
    Wrote c ord a k va left i pos b io (writeFrom c m ord a k va left i pos b io) := by
  induction left generalizing i pos b io with
  | zero =>
    unfold writeFrom
    exact ⟨.refl c io, kept_storeWord (by omega) 0, fun _ => ⟨[], rfl, hpos, stands_storeWord ord k b (3 + i) 0⟩⟩
  | succ left ih =>
    have hia : i < a.argc := by omega
    have hword : Kept a k i pos b (storeWord ord k b (3 + i) (va + BitVec.ofNat w (a.strings + pos))) := kept_storeWord hia.le _
    unfold writeFrom
    dsimp only
    split
    next hv =>
      have hroom := hname hv
      rw [Nat.succ_mul] at hroom
      exact Wrote.cons hia (by omega) (.refl c io) (ih (i + 1) _ _ io (by omega) (by omega) fun _ => by omega)
    next hv =>
      have hslot : Reads c io (slotIn c m ord a.vector i io).1 := slotIn_reads
      split
      next io₁ heq =>
        rw [heq] at hslot
        exact .failed hslot hword
      next io₁ su heq =>
        rw [heq] at hslot
        have hlen := stringLen_reads c m none su (by omega : a.bytes - pos ≤ 65535) io₁
        split
        next io₂ e hstr =>
          rw [hstr] at hlen
          exact .failed (hslot.trans hlen.1) hword
        next io₂ len hstr =>
          rw [hstr] at hlen
          obtain ⟨hread, hok⟩ := hlen
          obtain ⟨hlt, hbytes⟩ := hok len rfl
          -- The copy reads the string once more, byte for byte where it was measured.
          have hcopy : Reads c io₂ (m.copyIn true su len io₂).io := copyIn_reads fun p hp => hbytes p hp.le
          have hreads := (hslot.trans hread).trans hcopy
          obtain ⟨hle, hwhole⟩ := length_copyIn m true su len io₂
          split
          next hfull =>
            have hl := hwhole hfull
            have hroom : pos + (m.copyIn true su len io₂).bytes.length < a.bytes := by
              rw [hl]
              omega
            refine Wrote.cons hia hroom hreads ?_
            rw [hl]
            exact ih (i + 1) (pos + len + 1) _ (m.copyIn true su len io₂).io (by omega) (by omega) fun h => absurd h hv
          · exact .failed hreads (hword.trans (kept_putAll (by omega)))

/-! ### The whole block -/

theorem size_ge (cfg : Config) (a : ArgBlock w) : a.strings + a.bytes ≤ argBlockSize cfg a := by
  have hpos := cfg.align_pos
  have hdiv := Nat.div_add_mod (a.strings + a.bytes + cfg.stackAlign - 1) cfg.stackAlign
  have hmod := Nat.mod_lt (a.strings + a.bytes + cfg.stackAlign - 1) hpos
  unfold argBlockSize
  rw [Nat.mul_comm] at hdiv
  omega

def wordAt (ord : Order w) (b : Nat → BitVec 8) (place : Nat) : BitVec w := ord.join (slice b place (w / 8))

theorem wordAt_of_stands {place : Nat} {x : BitVec w} (h : Stands b place (ord.split x)) : wordAt ord b place = x := by
  unfold wordAt
  rw [← ord.length_split x, h.slice_eq, ord.join_split]

def ArgBlock.offset (a : ArgBlock w) (strs : List (List (BitVec 8))) (i : Nat) : Nat := a.strings + total (strs.take i)

/-- The block as the thread finds it at its argument: the count, the declaration and the shared block, a pointer for
each string and a null one, and the strings with their NULs one behind the other. -/
structure Holds (ord : Order w) (a : ArgBlock w) (k : Nat) (va block : BitVec w) (b : Nat → BitVec 8)
    (strs : List (List (BitVec 8))) : Prop where
  argc : wordAt ord b k = BitVec.ofNat w strs.length
  decl : wordAt ord b (k + w / 8) = BitVec.ofNat w a.decl
  block : wordAt ord b (k + 2 * (w / 8)) = block
  pointer : ∀ i, i < strs.length → wordAt ord b (k + (3 + i) * (w / 8)) = va + BitVec.ofNat w (a.offset strs i)
  null : wordAt ord b (k + (3 + strs.length) * (w / 8)) = 0
  string : ∀ i (h : i < strs.length), Stands b (k + a.offset strs i) (strs[i] ++ [0])
  room : ∀ i (h : i < strs.length), a.offset strs i + strs[i].length + 1 ≤ a.strings + a.bytes
  apart : ∀ i j (h : i < j) (hj : j < strs.length), a.offset strs i + (strs[i]).length + 1 ≤ a.offset strs j

theorem total_cons (s : List (BitVec 8)) (strs : List (List (BitVec 8))) :
    total (s :: strs) = s.length + 1 + total strs := by simp [total]

theorem total_append (strs more : List (List (BitVec 8))) : total (strs ++ more) = total strs + total more := by simp [total]

theorem total_take_succ {strs : List (List (BitVec 8))} {i : Nat} (h : i < strs.length) :
    total (strs.take (i + 1)) = total (strs.take i) + strs[i].length + 1 := by
  rw [← List.take_concat_get' strs i h, total_append]
  simp [total]
  omega

theorem total_take_le (strs : List (List (BitVec 8))) {i j : Nat} (h : i ≤ j) : total (strs.take i) ≤ total (strs.take j) := by
  have hpre : strs.take i = (strs.take j).take i := by rw [List.take_take, Nat.min_eq_left h]
  rw [hpre]
  conv_rhs => rw [← List.take_append_drop i (strs.take j), total_append]
  omega

theorem Laid.pointer {strs : List (List (BitVec 8))} {i pos : Nat} (h : Laid ord a k va b i pos strs) {j : Nat}
    (hj : j < strs.length) : wordAt ord b (k + (3 + (i + j)) * (w / 8)) =
    va + BitVec.ofNat w (a.strings + (pos + total (strs.take j))) ∧
    Stands b (k + (a.strings + (pos + total (strs.take j)))) (strs[j] ++ [0]) := by
  induction strs generalizing i pos j with
  | nil => cases hj
  | cons s strs ih =>
    obtain ⟨hw, hs, hl⟩ := h
    cases j with
    | zero =>
      refine ⟨?_, ?_⟩
      · simpa [total] using wordAt_of_stands hw
      · simpa [total, Nat.add_assoc] using hs
    | succ j =>
      obtain ⟨h1, h2⟩ := ih hl (Nat.lt_of_succ_lt_succ hj)
      rw [List.take_succ_cons, total_cons, show i + (j + 1) = i + 1 + j by omega,
        show pos + (s.length + 1 + total (strs.take j)) = pos + s.length + 1 + total (strs.take j) by omega]
      exact ⟨h1, h2⟩

theorem Laid.null {strs : List (List (BitVec 8))} {i pos : Nat} (h : Laid ord a k va b i pos strs) :
    wordAt ord b (k + (3 + (i + strs.length)) * (w / 8)) = 0 := by
  induction strs generalizing i pos with
  | nil => exact wordAt_of_stands h
  | cons s strs ih =>
    have hn := ih h.2.2
    rwa [List.length_cons, show i + (strs.length + 1) = i + 1 + strs.length by omega]

def header (ord : Order w) (a : ArgBlock w) (k : Nat) (block : BitVec w) (b : Nat → BitVec 8) : Nat → BitVec 8 :=
  storeWord ord k (storeWord ord k (storeWord ord k b 0 (BitVec.ofNat w a.argc)) 1 (BitVec.ofNat w a.decl)) 2 block

theorem storeWord_outside {j p : Nat} {x : BitVec w} (hp : p < k + j * (w / 8) ∨ k + (j + 1) * (w / 8) ≤ p) :
    storeWord ord k b j x p = b p := by
  refine (putAll_spec b _ _).2 p ?_
  rw [ord.length_split]
  rw [Nat.succ_mul] at hp
  omega

theorem header_outside {p : Nat} (hp : p < k ∨ k + 3 * (w / 8) ≤ p) : header ord a k block b p = b p := by
  unfold header
  rw [storeWord_outside (by omega), storeWord_outside (by omega), storeWord_outside (by omega)]

theorem header_words (ord : Order w) (a : ArgBlock w) (k : Nat) (block : BitVec w) (b : Nat → BitVec 8) :
    Stands (header ord a k block b) k (ord.split (BitVec.ofNat w a.argc)) ∧
      Stands (header ord a k block b) (k + w / 8) (ord.split (BitVec.ofNat w a.decl)) ∧
      Stands (header ord a k block b) (k + 2 * (w / 8)) (ord.split block) := by
  unfold header
  refine ⟨?_, ?_, stands_storeWord ord k _ 2 block⟩
  · have h0 := stands_storeWord ord k b 0 (BitVec.ofNat w a.argc)
    rw [Nat.zero_mul, Nat.add_zero] at h0
    refine h0.congr ?_
    intro p _ hp
    rw [ord.length_split] at hp
    rw [storeWord_outside (by omega), storeWord_outside (by omega)]
  · have h1 := stands_storeWord ord k (storeWord ord k b 0 (BitVec.ofNat w a.argc)) 1 (BitVec.ofNat w a.decl)
    rw [Nat.one_mul] at h1
    refine h1.congr ?_
    intro p _ hp
    rw [ord.length_split] at hp
    rw [storeWord_outside (by omega)]

theorem holds_of_laid {strs : List (List (BitVec 8))} (hk : Kept a k 0 0 (header ord a k block b) b')
    (hl : Laid ord a k va b' 0 0 strs) (hlen : strs.length = a.argc) (hsum : total strs ≤ a.bytes) :
    Holds ord a k va block b' strs := by
  have hstr : 4 * (w / 8) ≤ a.strings := Nat.mul_le_mul_right _ (by omega)
  have hkeep : ∀ p, p < k + 3 * (w / 8) → b' p = header ord a k block b p := fun p hp => hk p (by omega) (by omega)
  obtain ⟨h0, h1, h2⟩ := header_words ord a k block b
  refine ⟨?_, ?_, ?_, ?_, ?_, ?_, ?_, ?_⟩
  · rw [hlen]
    refine wordAt_of_stands (h0.congr fun p _ hp => hkeep p ?_)
    rw [ord.length_split] at hp
    omega
  · refine wordAt_of_stands (h1.congr fun p _ hp => hkeep p ?_)
    rw [ord.length_split] at hp
    omega
  · refine wordAt_of_stands (h2.congr fun p _ hp => hkeep p ?_)
    rw [ord.length_split] at hp
    omega
  · intro i hi
    have hp := (hl.pointer hi).1
    rwa [Nat.zero_add, Nat.zero_add] at hp
  · have hn := hl.null
    rwa [Nat.zero_add] at hn
  · intro i hi
    have hs := (hl.pointer hi).2
    rwa [Nat.zero_add] at hs
  · intro i hi
    have h3 := total_take_succ hi
    have h4 := total_take_le strs (i := i + 1) (j := strs.length) hi
    rw [List.take_length] at h4
    unfold ArgBlock.offset
    omega
  · intro i j hij hj
    have h3 := total_take_succ (hij.trans hj)
    have h4 := total_take_le strs (i := i + 1) (j := j) hij
    unfold ArgBlock.offset
    omega

theorem placeBlock_spec (hm : Measured cfg a) (stack : BitVec w) (stackSize carve : Nat) (block : BitVec w)
    (b : Nat → BitVec 8) (io : Io w) : Reads c io (placeBlock cfg c m ord a stack stackSize carve block b io).1 ∧
      SameOutside b (placeBlock cfg c m ord a stack stackSize carve block b io).2.1 (stackSize - argBlockSize cfg a) stackSize ∧
      ((placeBlock cfg c m ord a stack stackSize carve block b io).2.2 = none →
        argBlockSize cfg a ≤ stackSize ∧
          ∃ strs, strs.length = a.argc ∧
            Holds ord a (stackSize - argBlockSize cfg a)
              (stack + BitVec.ofNat w stackSize - BitVec.ofNat w (argBlockSize cfg a)) block
              (placeBlock cfg c m ord a stack stackSize carve block b io).2.1 strs) := by
  have hsize := size_ge cfg a
  have hbytes := hm.bytes_le.trans cfg.argvMax_le
  have hstr : 4 * (w / 8) ≤ a.strings := Nat.mul_le_mul_right _ (by omega)
  unfold placeBlock
  split
  · exact ⟨.refl c io, sameOutside_refl, fun h => by cases h⟩
  next hfit =>
    have hw := writeFrom_spec c m ord (stackSize - argBlockSize cfg a)
      (stack + BitVec.ofNat w stackSize - BitVec.ofNat w (argBlockSize cfg a)) hbytes a.argc 0 0
      (header ord a (stackSize - argBlockSize cfg a) block b) io (by omega) (Nat.zero_le _)
      (fun h0 => by obtain ⟨h1, h2⟩ := hm.name h0; rw [h1, h2]; omega)
    refine ⟨hw.reads, ?_, ?_⟩
    · intro p hp
      have hk := hw.kept p (by omega) (by omega)
      exact hk.trans (header_outside (by omega))
    · intro hok
      obtain ⟨strs, hlen, hsum, hl⟩ := hw.laid hok
      rw [Nat.zero_add] at hsum
      exact ⟨by omega, strs, hlen, holds_of_laid hw.kept hl hlen hsum⟩

end KickOS.Argv
