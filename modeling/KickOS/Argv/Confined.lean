import KickOS.Argv.Still

/-! The argument block of a create stays inside what is reserved for it, and holds the caller's strings if these stay as
they are. -/

namespace KickOS.Argv
open Range Lib Buffer

variable {w n : Nat} {cfg : Config} {c : Caller w n} {m : World w} {ord : Order w} {argv : BitVec w}
    {name : List (BitVec 8)} {decl : Nat} {stack : BitVec w} {stackSize carve : Nat} {block : BitVec w}
    {b : Nat → BitVec 8} {io : Io w} {a : ArgBlock w}

/-- Where the block of a stack starts, in the stack and for the thread. -/
def home (cfg : Config) (a : ArgBlock w) (stackSize : Nat) : Nat := stackSize - argBlockSize cfg a

def homeVa (cfg : Config) (a : ArgBlock w) (stack : BitVec w) (stackSize : Nat) : BitVec w :=
  stack + BitVec.ofNat w stackSize - BitVec.ofNat w (argBlockSize cfg a)

theorem createArgs_ok (stack : BitVec w) (stackSize carve : Nat) (block : BitVec w) (b : Nat → BitVec 8)
    (h : (argvIn cfg c m ord argv name decl io).2 = .ok a) :
    ∃ io', (argvIn cfg c m ord argv name decl io).1 = io' ∧
      (createArgs cfg c m ord argv name decl stack stackSize carve block b io).1 =
        (placeBlock cfg c m ord a stack stackSize carve block b io').1 ∧
      (createArgs cfg c m ord argv name decl stack stackSize carve block b io).2.1 =
        (placeBlock cfg c m ord a stack stackSize carve block b io').2.1 ∧
      ∀ a', (createArgs cfg c m ord argv name decl stack stackSize carve block b io).2.2 = .ok a' ↔
        a' = a ∧ (placeBlock cfg c m ord a stack stackSize carve block b io').2.2 = none := by
  refine ⟨_, rfl, ?_⟩
  unfold createArgs
  split
  next heq =>
    rw [heq] at h
    cases h
  next io₁ a₁ heq =>
    rw [heq] at h ⊢
    have ha : a₁ = a := by
      injection h
    subst ha
    simp only
    split
    next hplace =>
      rw [hplace]
      simp
    next hplace =>
      rw [hplace]
      simp [eq_comm]

theorem writeFrom_name {k : Nat} {va : BitVec w} (hv : a.vector = 0) (hargc : a.argc = 1) (b : Nat → BitVec 8)
    (io : Io w) :
    (writeFrom c m ord a k va a.argc 0 0 b io).2.2 = none ∧
      Laid ord a k va (writeFrom c m ord a k va a.argc 0 0 b io).2.1 0 0 [a.name] := by
  rw [hargc]
  unfold writeFrom
  dsimp only
  rw [if_pos hv]
  unfold writeFrom
  refine ⟨rfl, laid_cons b (by omega) rfl rfl (kept_storeWord (by omega) 0) ?_⟩
  exact stands_storeWord ord k _ _ 0

theorem placeBlock_of_laid {strs : List (List (BitVec 8))} (hm : Measured cfg a)
    (hfit : argBlockSize cfg a + cfg.minStack + carve ≤ stackSize) (hlen : strs.length = a.argc)
      (hsum : total strs ≤ a.bytes) (b : Nat → BitVec 8)
    (io : Io w)
    (h : ∀ b, (writeFrom c m ord a (home cfg a stackSize) (homeVa cfg a stack stackSize) a.argc 0 0 b io).2.2 = none ∧
      Laid ord a (home cfg a stackSize) (homeVa cfg a stack stackSize)
        (writeFrom c m ord a (home cfg a stackSize) (homeVa cfg a stack stackSize) a.argc 0 0 b io).2.1 0 0 strs) :
    (placeBlock cfg c m ord a stack stackSize carve block b io).2.2 = none ∧
      Holds ord a (home cfg a stackSize) (homeVa cfg a stack stackSize) block
        (placeBlock cfg c m ord a stack stackSize carve block b io).2.1 strs := by
  have hname : a.vector = 0 → 0 + a.argc * (a.name.length + 1) ≤ a.bytes := by
    intro h0
    obtain ⟨h1, h2⟩ := hm.name h0
    rw [h1, h2]
    omega
  have hw : Wrote c ord a (home cfg a stackSize) (homeVa cfg a stack stackSize) a.argc 0 0
      (header ord a (home cfg a stackSize) block b) io (writeFrom c m ord a (home cfg a stackSize)
      (homeVa cfg a stack stackSize) a.argc 0 0 (header ord a (home cfg a stackSize) block b) io) :=
    writeFrom_spec c m ord _ _ (hm.bytes_le.trans cfg.argvMax_le) a.argc 0 0 _ io (by omega) (Nat.zero_le _) hname
  obtain ⟨h1, h2⟩ := h (header ord a (home cfg a stackSize) block b)
  unfold placeBlock
  rw [if_neg (by omega)]
  exact ⟨h1, holds_of_laid hw.kept h2 hlen hsum⟩

section Still

variable {mem : BitVec w → BitVec 8} {acq : BitVec w → Bool}

theorem argvIn_found (hs : Still m mem acq) (h : (argvIn cfg c m ord argv name decl io).2 = .ok a) :
    (argv = 0 ∧ a.vector = 0 ∧ a.name = name) ∨
      (argv ≠ 0 ∧ a.vector = argv ∧
        ∃ strs, Found cfg c m mem acq ord argv 0 0 strs ∧ strs.length = a.argc ∧ total strs = a.bytes) := by
  have hmax := cfg.argvMax_le
  unfold argvIn at h
  split at h
  next hz =>
    split at h
    · cases h
    · cases h
      exact .inl ⟨hz, rfl, rfl⟩
  next hz =>
    split at h
    · cases h
    · split at h
      · cases h
      next io₁ argc used heq =>
        cases h
        have hok : (measure cfg c m ord argv (cfg.maxArgc + 1) 0 0 io).2 = .ok (argc, used) := by rw [heq]
        obtain ⟨strs, hf, hr⟩ := measure_found hs (cfg.maxArgc + 1) 0 0 io hok
        obtain ⟨hle, hu⟩ := (measure_spec c m ord argv (cfg.maxArgc + 1) 0 0 io (Nat.zero_le cfg.argvMax) le_rfl).2 _ hok
        simp only [Nat.zero_add, Prod.mk.injEq] at hr hle hu
        refine .inr ⟨hz, rfl, strs, hf, ?_, ?_⟩
        · simp only
          rw [Nat.mod_eq_of_lt (by omega), hr.1]
        · simp only
          rw [Nat.mod_eq_of_lt (by omega), hr.2]

theorem placeBlock_still (stack block : BitVec w) (hs : Still m mem acq) (h : (argvIn cfg c m ord argv name decl io).2 = .ok a)
    (hfit : argBlockSize cfg a + cfg.minStack + carve ≤ stackSize) (b : Nat → BitVec 8) (io' : Io w) :
    (placeBlock cfg c m ord a stack stackSize carve block b io').2.2 = none ∧
      ∃ strs, Holds ord a (home cfg a stackSize) (homeVa cfg a stack stackSize) block
          (placeBlock cfg c m ord a stack stackSize carve block b io').2.1 strs ∧
        (argv = 0 → strs = [name]) ∧ (argv ≠ 0 → Vector mem ord argv strs) := by
  have hm := (argvIn_spec cfg c m ord argv name decl io).2 a h
  rcases argvIn_found hs h with ⟨hz, hv, hname⟩ | ⟨hz, hv, strs, hf, hlen, hsum⟩
  · obtain ⟨hargc, hbytes⟩ := hm.name hv
    have hone : [a.name].length = a.argc := by
      rw [hargc]
      rfl
    obtain ⟨h1, h2⟩ := placeBlock_of_laid hm hfit hone (by simp [total, hbytes]) b io' fun b => writeFrom_name hv hargc b io'
    exact ⟨h1, [a.name], h2, fun _ => by rw [hname], fun hne => absurd hz hne⟩
  · have hlaid : ∀ b, (writeFrom c m ord a (home cfg a stackSize) (homeVa cfg a stack stackSize) a.argc 0 0 b io').2.2 = none ∧
        Laid ord a (home cfg a stackSize) (homeVa cfg a stack stackSize)
          (writeFrom c m ord a (home cfg a stackSize) (homeVa cfg a stack stackSize) a.argc 0 0 b io').2.1 0 0 strs := by
      intro b
      rw [← hlen]
      exact writeFrom_found hs hm.bytes_le (hv ▸ hz) 0 0 b io' (hv.symm ▸ hf) (by omega) (by omega)
    obtain ⟨h1, h2⟩ := placeBlock_of_laid hm hfit hlen hsum.le b io' hlaid
    obtain ⟨h3, h4⟩ := hf.strings
    simp only [Nat.zero_add] at h3 h4
    exact ⟨h1, strs, h2, fun h0 => absurd h0 hz, fun _ => ⟨h3, h4⟩⟩

theorem argvIn_of_vector {strs : List (List (BitVec 8))} (name : List (BitVec 8)) (decl : Nat) (io : Io w)
    (hs : Still m mem acq) (hne : argv ≠ 0) (halign : argv &&& (BitVec.ofNat w (w / 8) - 1) = 0)
    (hv : Vector mem ord argv strs) (ha : Accessible c mem acq ord argv strs)
    (hargc : strs.length ≤ cfg.maxArgc) (hsum : total strs ≤ cfg.argvMax) :
    ∃ a, (argvIn cfg c m ord argv name decl io).2 = .ok a ∧ a.vector = argv := by
  have hm := measure_of_vector hs hv ha hargc hsum (cfg.maxArgc + 1) 0 io (Nat.zero_le _) (by omega)
  have h0 : total (strs.take 0) = 0 := rfl
  rw [h0] at hm
  unfold argvIn
  rw [if_neg hne, if_neg (not_not.2 halign)]
  split
  next heq =>
    rw [heq] at hm
    cases hm
  next heq => exact ⟨_, rfl, rfl⟩

end Still

/-- A create reads of the caller only what the caller may read, and writes only the bytes reserved at the top of the new
stack, whatever becomes of the caller's memory between any two of its reads. A block it has written holds its count, a
pointer to each of its strings, which lie in it with their NULs one behind the other, and a null pointer. If nothing is
rewritten, a vector within the limits is measured, a measured one is placed, and the strings are the caller's. -/
theorem argument_block_confined (cfg : Config) (c : Caller w n) (m : World w) (ord : Order w) (argv : BitVec w)
    (name : List (BitVec 8)) (decl : Nat) (stack : BitVec w) (stackSize carve : Nat) (block : BitVec w)
    (b : Nat → BitVec 8) (io : Io w) : Reads c io (createArgs cfg c m ord argv name decl stack stackSize carve block b
    io).1 ∧ (∀ e, (argvIn cfg c m ord argv name decl io).2 = .error e →
    (createArgs cfg c m ord argv name decl stack stackSize carve block b io).2.1 = b) ∧
    (∀ a, (argvIn cfg c m ord argv name decl io).2 = .ok a →
      SameOutside b (createArgs cfg c m ord argv name decl stack stackSize carve block b io).2.1
        (stackSize - argBlockSize cfg a) stackSize) ∧
    (∀ a, (createArgs cfg c m ord argv name decl stack stackSize carve block b io).2.2 = .ok a →
      argBlockSize cfg a ≤ stackSize ∧
        ∃ strs, strs.length = a.argc ∧
          Holds ord a (home cfg a stackSize) (homeVa cfg a stack stackSize) block
            (createArgs cfg c m ord argv name decl stack stackSize carve block b io).2.1 strs) ∧
    ∀ mem acq, Still m mem acq →
      (∀ a, (argvIn cfg c m ord argv name decl io).2 = .ok a → argBlockSize cfg a + cfg.minStack + carve ≤ stackSize →
        (createArgs cfg c m ord argv name decl stack stackSize carve block b io).2.2 = .ok a ∧
          ∃ strs, Holds ord a (home cfg a stackSize) (homeVa cfg a stack stackSize) block
              (createArgs cfg c m ord argv name decl stack stackSize carve block b io).2.1 strs ∧
            (argv = 0 → strs = [name]) ∧ (argv ≠ 0 → Vector mem ord argv strs)) ∧
      ∀ strs, argv ≠ 0 → argv &&& (BitVec.ofNat w (w / 8) - 1) = 0 → Vector mem ord argv strs →
        Accessible c mem acq ord argv strs → strs.length ≤ cfg.maxArgc → total strs ≤ cfg.argvMax →
        ∃ a, (argvIn cfg c m ord argv name decl io).2 = .ok a := by
  obtain ⟨hreads, hmeasured⟩ := argvIn_spec cfg c m ord argv name decl io
  refine ⟨?_, ?_, ?_, ?_, ?_⟩
  · cases hin : (argvIn cfg c m ord argv name decl io).2 with
    | error e =>
      unfold createArgs
      split
      next heq =>
        rw [heq] at hreads
        exact hreads
      next heq =>
        rw [heq] at hin
        cases hin
    | ok a =>
      obtain ⟨io', rfl, hio, -⟩ := createArgs_ok stack stackSize carve block b hin
      rw [hio]
      exact hreads.trans (placeBlock_spec (hmeasured a hin) stack stackSize carve block b _).1
  · intro e he
    unfold createArgs
    split
    · rfl
    next heq =>
      rw [heq] at he
      cases he
  · intro a hin
    obtain ⟨io', -, -, hb, -⟩ := createArgs_ok stack stackSize carve block b hin
    rw [hb]
    exact (placeBlock_spec (hmeasured a hin) stack stackSize carve block b io').2.1
  · intro a hok
    cases hin : (argvIn cfg c m ord argv name decl io).2 with
    | error e =>
      unfold createArgs at hok
      split at hok
      · cases hok
      next heq =>
        rw [heq] at hin
        cases hin
    | ok a₁ =>
      obtain ⟨io', -, -, hb, hiff⟩ := createArgs_ok stack stackSize carve block b hin
      obtain ⟨rfl, hnone⟩ := (hiff a).1 hok
      rw [hb]
      exact (placeBlock_spec (hmeasured a hin) stack stackSize carve block b io').2.2 hnone
  · intro mem acq hs
    refine ⟨?_, ?_⟩
    · intro a hin hfit
      obtain ⟨io', -, -, hb, hiff⟩ := createArgs_ok stack stackSize carve block b hin
      obtain ⟨hnone, hstrs⟩ := placeBlock_still stack block hs hin hfit b io'
      rw [hb]
      exact ⟨(hiff a).2 ⟨rfl, hnone⟩, hstrs⟩
    · intro strs hne halign hv ha hargc hsum
      obtain ⟨a, hok, -⟩ := argvIn_of_vector name decl io hs hne halign hv ha hargc hsum
      exact ⟨a, hok⟩

def little : Order 32 where
  split x := [x.setWidth 8, (x >>> 8).setWidth 8, (x >>> 16).setWidth 8, (x >>> 24).setWidth 8]
  join
    | [b0, b1, b2, b3] => b3 ++ b2 ++ b1 ++ b0
    | _ => 0
  length_split _ := rfl
  join_split x := by
    refine BitVec.eq_of_getLsbD_eq fun i hi => ?_
    simp only [BitVec.getLsbD_append, BitVec.getLsbD_setWidth, BitVec.getLsbD_ushiftRight]
    split_ifs
    · simp [*]
    · have : i - 8 < 8 := by omega
      have h8 : 8 + (i - 8) = i := by omega
      simp [*]
    · have : i - 8 - 8 < 8 := by omega
      have h8 : 16 + (i - 8 - 8) = i := by omega
      simp [*]
    · have : i - 8 - 8 - 8 < 8 := by omega
      have h8 : 24 + (i - 8 - 8 - 8) = i := by omega
      simp [*]

def small : Config := ⟨256, 32, 16, 512, by decide, by decide⟩

def reader : Caller 32 0 := ⟨[⟨0x1000, 0x2000, 1⟩], none, none, .enforced, by simp, by decide⟩

/-- A vector at `0x1000` of the one string `ab` at `0x2000`. -/
def vectorOfOne (a : BitVec 32) : BitVec 8 := if a = 0x1001 then 0x20 else if a = 0x2000 then 97 else if a = 0x2001 then 98 else 0

def stillWorld : World 32 := ⟨fun _ => vectorOfOne, fun _ _ => true, 0x1000⟩

/-- The block of such a vector holds its string. -/
theorem argument_block_confined_vectorOfOne :
    ∃ a strs, (createArgs small reader stillWorld little 0x1000 [120] 3 0x8000 4096 64 0 (fun _ => 0xff) {}).2.2 = .ok a ∧
      Holds little a (home small a 4096) (homeVa small a 0x8000 4096) 0
        (createArgs small reader stillWorld little 0x1000 [120] 3 0x8000 4096 64 0 (fun _ => 0xff) {}).2.1 strs ∧
      Vector vectorOfOne little 0x1000 strs := by
  have hin : (argvIn small reader stillWorld little 0x1000 [120] 3 {}).2 = .ok ⟨0x1000, [120], 1, 3, 3⟩ := rfl
  obtain ⟨-, -, -, -, hstill⟩ :=
    argument_block_confined small reader stillWorld little 0x1000 [120] 3 0x8000 4096 64 0 (fun _ => 0xff) {}
  obtain ⟨hok, strs, hh, -, hv⟩ := (hstill vectorOfOne (fun _ => true) ⟨fun _ _ => rfl, fun _ _ => rfl⟩).1 _ hin (by decide)
  exact ⟨_, strs, hok, hh, hv (by decide)⟩

end KickOS.Argv
