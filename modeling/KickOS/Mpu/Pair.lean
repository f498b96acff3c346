import KickOS.Mpu.Set

/-! The check of a buffer the kernel reads and then writes back (`user_readable_and_writable_ok`), beside the two checks
it stands for.

Every arm of the three checks is here, those of the region backends and those of the translating ones: what a build
holds of them is a `Build`. The lengths of the two halves differ, and either may be zero. -/

namespace KickOS
namespace Mpu

/-! ### The range list of a translated space -/

/-- The `ARCH_MAP_*` rights. -/
structure Rights where
  r : Bool := false
  w : Bool := false
  x : Bool := false
  deriving DecidableEq, Repr

inductive VirtualState where
  | free | reserved | granted
  deriving DecidableEq, Repr

structure VirtualRange (bits : Nat) where
  base : BitVec bits
  pages : BitVec 32
  rights : Rights
  state : VirtualState
  deriving DecidableEq, Repr

structure VirtualRanges (bits : Nat) where
  ranges : List (VirtualRange bits)
  granule : BitVec bits
  deriving DecidableEq, Repr

/-- `(have & need) == need`. -/
def Rights.has (given need : Rights) : Bool := (!need.r || given.r) && (!need.w || given.w) && (!need.x || given.x)

/-- `vr_grants`. -/
def vrGrants {bits : Nat} (e : Option (VirtualRange bits)) (rights : Rights) : Bool :=
  match e with
  | none => false
  | some e => e.state == .granted && e.rights.has rights

namespace VirtualRanges

variable {bits : Nat} (v : VirtualRanges bits)

def endOf (e : VirtualRange bits) : BitVec bits := e.base + e.pages.setWidth bits * v.granule

/-- The live range that holds all of `[addr, addr + len)`. -/
def find (addr len : BitVec bits) : Option (VirtualRange bits) :=
  if v.granule = 0 ∨ len = 0 then none
  else if addr + len < addr then none
  else v.ranges.find? fun e => e.state != .free && decide (e.base ≤ addr) && decide (addr + len ≤ v.endOf e)

def covers (addr len : BitVec bits) (rights : Rights) : Bool := vrGrants (v.find addr len) rights

end VirtualRanges

/-! ### The two checks -/

/-- `map_rights_of`. -/
def mapRightsOf (need : Attr) : Rights := ⟨need.r, need.w, need.x⟩

/-- `(attr & need) == need`. -/
def Attr.has (need attr : Attr) : Bool :=
  (!need.r || attr.r) && (!need.w || attr.w) && (!need.x || attr.x) && (!need.dev || attr.dev) && (!need.nocache || attr.nocache)

/-- What a build compiles of the checks. -/
structure Build where
  board : Board
  /-- `KICKOS_HAVE_ASPACE`. -/
  translates : Bool
  /-- `arch_user_text_readable`. -/
  textReadable : (ptr len : BitVec board.bits) → Bool
  /-- `arch_user_data_writable`. -/
  dataWritable : (ptr len : BitVec board.bits) → Bool

/-- What the checks read of a thread: its set, and the ranges of its domain where that has a space. -/
structure Caller (b : Build) where
  mpu : MpuSet b.board
  ranges : Option (VirtualRanges b.board.bits)

namespace Caller

variable {b : Build} (c : Caller b)

/-- `read_only_overlaps`: a translating backend's rights are its mapping's. -/
def readOnlyOverlaps (ptr fin : BitVec b.board.bits) : Bool := if b.translates then false else c.mpu.readOnlyOverlaps ptr fin

/-- A region of the thread's set holds the range with every right needed. -/
def regionHolds (ptr fin : BitVec b.board.bits) (need : Attr) : Bool :=
  c.mpu.regions.any (MpuSet.regionAnswers (B := b.board) ptr fin need.has)

/-- The fixed code window, which answers reads and fetches. -/
def codeHolds (b : Build) (ptr len : BitVec b.board.bits) (need : Attr) : Bool :=
  !need.w && !need.dev && !need.nocache && MpuSet.codeWindowHolds b.board ptr len

/-- The entry of the range list, where the build has one. -/
def rangeGrants (ptr len : BitVec b.board.bits) (need : Attr) : Bool :=
  b.translates && vrGrants (c.ranges.bind fun v => v.find ptr len) (mapRightsOf need)

end Caller

section checks

variable {b : Build} (c : Option (Caller b)) (ptr len : BitVec b.board.bits)

/-- `thread_range_ok`. -/
def threadRangeOk (need : Attr) : Bool :=
  match c with
  | none => false
  | some c =>
    if len = 0 then true
    else if ptr + len < ptr then false
    else if need.w && c.readOnlyOverlaps ptr (ptr + len) then false
    else c.regionHolds ptr (ptr + len) need || Caller.codeHolds b ptr len need || c.rangeGrants ptr len need

/-- `user_readable_ok`, of the running thread. -/
def userReadableOk : Bool := threadRangeOk c ptr len { r := true } || b.textReadable ptr len

/-- `user_writable_ok`, of the running thread. -/
def userWritableOk : Bool := threadRangeOk c ptr len { w := true } || b.dataWritable ptr len

end checks

/-! ### The combined check -/

/-- The locals of the walk. -/
structure PairState where
  readSeen : Bool
  writeSeen : Bool
  readAsks : Bool
  writeAsks : Bool
  deriving DecidableEq, Repr

/-- The walk over the set, which ends once neither half asks. -/
def pairLoop {bits : Nat} (ptr readEnd writeEnd : BitVec bits) : List (Region bits) → PairState → PairState
  | [], s => s
  | r :: l, s =>
    if !s.readAsks && !s.writeAsks then s
    else if r.base + r.size < r.base ∨ ptr < r.base ∨ r.attr.dev = true then pairLoop ptr readEnd writeEnd l s
    else
      let s := if s.readAsks && r.attr.r && decide (readEnd ≤ r.base + r.size) then
        { s with readSeen := true, readAsks := false } else s
      let s := if s.writeAsks && r.attr.w && decide (writeEnd ≤ r.base + r.size) then
        { s with writeSeen := true, writeAsks := false } else s
      pairLoop ptr readEnd writeEnd l s

namespace Caller

variable {b : Build} (c : Caller b) (ptr readLen writeLen : BitVec b.board.bits)

/-- The walk's locals before its first region. A wrapping extent asks the set nothing. -/
def pairStart : PairState :=
  let readSeen := decide (readLen = 0)
  let writeSeen := decide (writeLen = 0)
  let readAsks := !readSeen && decide (ptr ≤ ptr + readLen)
  let writeAsks := !writeSeen && decide (ptr ≤ ptr + writeLen)
  ⟨readSeen, writeSeen, readAsks, writeAsks && !c.readOnlyOverlaps ptr (ptr + writeLen)⟩

/-- What the range list adds to the walk, for a half that still asks. -/
def pairRanges (s : PairState) : PairState :=
  if b.translates && (s.readAsks || s.writeAsks) then
    match c.ranges with
    | none => s
    | some v =>
      let s := if s.readAsks && v.covers ptr readLen (mapRightsOf { r := true }) then { s with readSeen := true } else s
      if s.writeAsks && v.covers ptr writeLen (mapRightsOf { w := true }) then { s with writeSeen := true } else s
  else s

def pairWalk : PairState :=
  c.pairRanges ptr readLen writeLen
    (pairLoop ptr (ptr + readLen) (ptr + writeLen) c.mpu.regions (c.pairStart ptr readLen writeLen))

end Caller

/-- `user_readable_and_writable_ok`, of the running thread. -/
def userReadableAndWritableOk {b : Build} (c : Option (Caller b)) (ptr readLen writeLen : BitVec b.board.bits) : Bool :=
  let s : PairState :=
    match c with
    | none => ⟨false, false, false, false⟩
    | some c => c.pairWalk ptr readLen writeLen
  if !s.readSeen && !b.textReadable ptr readLen then false
  else if !s.writeSeen && !b.dataWritable ptr writeLen then false
  else true

/-! ### What the walk sees -/

section walk

variable {b : Build} {c : Caller b} {ptr readLen writeLen len fin : BitVec b.board.bits} {s : PairState}

/-- A region of the walk answers for the bytes up to `fin`. -/
def answers {bits : Nat} (ptr fin : BitVec bits) (need : Attr → Bool) (r : Region bits) : Bool :=
  !r.attr.dev && decide (r.base ≤ r.base + r.size) && decide (r.base ≤ ptr) && need r.attr && decide (fin ≤ r.base + r.size)

theorem regionAnswers_eq {need : Attr} {right : Attr → Bool} (h : ∀ a, need.has a = right a) (ptr fin : BitVec b.board.bits)
    (r : Region b.board.bits) : MpuSet.regionAnswers (B := b.board) ptr fin need.has r = answers ptr fin right r := by
  simp only [MpuSet.regionAnswers, answers, h]
  cases right r.attr <;> simp

theorem has_read (a : Attr) : Attr.has { r := true } a = a.r := by simp [Attr.has]

theorem has_write (a : Attr) : Attr.has { w := true } a = a.w := by simp [Attr.has]

theorem pairLoop_eq {bits : Nat} (ptr readEnd writeEnd : BitVec bits) (l : List (Region bits)) (s : PairState) :
    pairLoop ptr readEnd writeEnd l s =
      ⟨s.readSeen || (s.readAsks && l.any (answers ptr readEnd Attr.r)),
        s.writeSeen || (s.writeAsks && l.any (answers ptr writeEnd Attr.w)),
        s.readAsks && !l.any (answers ptr readEnd Attr.r),
        s.writeAsks && !l.any (answers ptr writeEnd Attr.w)⟩ := by
  induction l generalizing s with
  | nil => simp [pairLoop]
  | cons r l ih =>
    obtain ⟨rs, ws, ra, wa⟩ := s
    simp only [pairLoop, List.any_cons]
    split
    · rename_i hasks
      obtain ⟨rfl, rfl⟩ : ra = false ∧ wa = false := by simpa using hasks
      simp
    · split
      · rename_i hout
        have hnone (need : Attr → Bool) (fin : BitVec bits) : answers ptr fin need r = false := by
          rcases hout with h | h | h
          · simp [answers, BitVec.not_le.mpr h]
          · simp [answers, BitVec.not_le.mpr h]
          · simp [answers, h]
        rw [ih, hnone, hnone]
        simp
      · rename_i hin
        have hans (need : Attr → Bool) (fin : BitVec bits) :
            answers ptr fin need r = (need r.attr && decide (fin ≤ r.base + r.size)) := by
          simp only [not_or, BitVec.not_lt, Bool.not_eq_true] at hin
          simp [answers, hin.1, hin.2.1, hin.2.2]
        rw [ih, hans, hans]
        cases hr : r.attr.r && decide (readEnd ≤ r.base + r.size) <;>
          cases hw : r.attr.w && decide (writeEnd ≤ r.base + r.size) <;>
          cases ra <;> cases wa <;> simp [hr, hw]

theorem pairRanges_seen (c : Caller b) (ptr readLen writeLen : BitVec b.board.bits) (s : PairState) :
    (c.pairRanges ptr readLen writeLen s).readSeen = (s.readSeen || (s.readAsks && c.rangeGrants ptr readLen { r := true })) ∧
      (c.pairRanges ptr readLen writeLen s).writeSeen =
        (s.writeSeen || (s.writeAsks && c.rangeGrants ptr writeLen { w := true })) := by
  obtain ⟨rs, ws, ra, wa⟩ := s
  unfold Caller.pairRanges Caller.rangeGrants
  cases b.translates with
  | false => simp
  | true =>
    cases c.ranges with
    | none => simp [vrGrants]
    | some v =>
      cases ra <;> cases wa <;> simp [VirtualRanges.covers] <;>
        cases vrGrants (v.find ptr readLen) (mapRightsOf { r := true }) <;>
        cases vrGrants (v.find ptr writeLen) (mapRightsOf { w := true }) <;> simp

/-- The arms of the read half that the walk has: nothing to read, a region, a range. -/
def Caller.readHeld (c : Caller b) (ptr len : BitVec b.board.bits) : Bool :=
  decide (len = 0) || (decide (ptr ≤ ptr + len) && (c.regionHolds ptr (ptr + len) { r := true } || c.rangeGrants ptr
    len { r := true }))

/-- The arms of the write half: nothing to write, or a region or a range with no read-only region in the way. -/
def Caller.writeHeld (c : Caller b) (ptr len : BitVec b.board.bits) : Bool :=
  decide (len = 0) ||
    (decide (ptr ≤ ptr + len) && !c.readOnlyOverlaps ptr (ptr + len) &&
      (c.regionHolds ptr (ptr + len) { w := true } || c.rangeGrants ptr len { w := true }))

theorem pairWalk_seen (c : Caller b) (ptr readLen writeLen : BitVec b.board.bits) :
    (c.pairWalk ptr readLen writeLen).readSeen = c.readHeld ptr readLen ∧
      (c.pairWalk ptr readLen writeLen).writeSeen = c.writeHeld ptr writeLen := by
  obtain ⟨hr, hw⟩ := pairRanges_seen c ptr readLen writeLen
    (pairLoop ptr (ptr + readLen) (ptr + writeLen) c.mpu.regions (c.pairStart ptr readLen writeLen))
  have hread : c.regionHolds ptr (ptr + readLen) { r := true } = c.mpu.regions.any (answers ptr (ptr + readLen) Attr.r) :=
    congrArg c.mpu.regions.any (funext (regionAnswers_eq has_read ptr (ptr + readLen)))
  have hwrite : c.regionHolds ptr (ptr + writeLen) { w := true } = c.mpu.regions.any (answers ptr (ptr + writeLen) Attr.w) :=
    congrArg c.mpu.regions.any (funext (regionAnswers_eq has_write ptr (ptr + writeLen)))
  rw [pairLoop_eq] at hr hw
  constructor
  · rw [Caller.pairWalk, pairLoop_eq, hr, Caller.readHeld, hread]
    simp only [Caller.pairStart]
    cases decide (readLen = 0) <;> cases decide (ptr ≤ ptr + readLen) <;>
      cases c.mpu.regions.any (answers ptr (ptr + readLen) Attr.r) <;> simp
  · rw [Caller.pairWalk, pairLoop_eq, hw, Caller.writeHeld, hwrite]
    simp only [Caller.pairStart]
    cases decide (writeLen = 0) <;> cases decide (ptr ≤ ptr + writeLen) <;>
      cases c.readOnlyOverlaps ptr (ptr + writeLen) <;>
      cases c.mpu.regions.any (answers ptr (ptr + writeLen) Attr.w) <;> simp

end walk

/-! ### The two checks by their arms -/

section arms

variable {b : Build} (c : Caller b) (ptr len : BitVec b.board.bits)

theorem threadRangeOk_read :
    threadRangeOk (some c) ptr len { r := true } = (c.readHeld ptr len ||
      (decide (len ≠ 0) && MpuSet.codeWindowHolds b.board ptr len)) := by
  by_cases h0 : len = 0
  · simp [threadRangeOk, Caller.readHeld, h0]
  · by_cases hwrap : ptr + len < ptr
    · have hcode : MpuSet.codeWindowHolds b.board ptr len = false := by
        unfold MpuSet.codeWindowHolds
        cases b.board.codeWindow with
        | none => rfl
        | some w => simp [BitVec.not_le.mpr hwrap]
      simp [threadRangeOk, Caller.readHeld, hwrap, BitVec.not_le.mpr hwrap, hcode]
    · have hne : decide (len ≠ 0) = true := decide_eq_true h0
      simp only [threadRangeOk, Caller.readHeld, Caller.codeHolds, hne, h0, hwrap, BitVec.not_lt.mp hwrap]
      cases c.regionHolds ptr (ptr + len) { r := true } <;> cases c.rangeGrants ptr len { r := true } <;> simp

theorem threadRangeOk_write : threadRangeOk (some c) ptr len { w := true } = c.writeHeld ptr len := by
  by_cases h0 : len = 0
  · simp [threadRangeOk, Caller.writeHeld, h0]
  · by_cases hwrap : ptr + len < ptr
    · simp [threadRangeOk, Caller.writeHeld, hwrap, BitVec.not_le.mpr hwrap]
    · simp only [threadRangeOk, Caller.writeHeld, Caller.codeHolds, h0, hwrap, BitVec.not_lt.mp hwrap]
      cases c.readOnlyOverlaps ptr (ptr + len) <;> simp

end arms

/-! ### The combined check against the two -/

section pair

variable {b : Build}

/-- Nothing but the fixed code window answers for the bytes to read, and there are some. -/
def OnlyCodeWindow (c : Option (Caller b)) (ptr len : BitVec b.board.bits) : Prop :=
  ∃ t, c = some t ∧ len ≠ 0 ∧ MpuSet.codeWindowHolds b.board ptr len = true ∧
    t.regionHolds ptr (ptr + len) { r := true } = false ∧ t.rangeGrants ptr len { r := true } = false ∧
    b.textReadable ptr len = false

/-- Some arm answers for the bytes to write: there are none, a region or a range of the thread holds them with no
read-only region in the way, or the backend admits them as static data. -/
def WriteAnswered (c : Option (Caller b)) (ptr len : BitVec b.board.bits) : Prop :=
  b.dataWritable ptr len = true ∨
    ∃ t, c = some t ∧
      (len = 0 ∨ (ptr ≤ ptr + len ∧ t.readOnlyOverlaps ptr (ptr + len) = false ∧
        (t.regionHolds ptr (ptr + len) { w := true } = true ∨ t.rangeGrants ptr len { w := true } = true)))

theorem codeWindowHolds_le {B : Board} {ptr len : BitVec B.bits} (h : MpuSet.codeWindowHolds B ptr len = true) :
    ptr ≤ ptr + len := by
  unfold MpuSet.codeWindowHolds at h
  cases hw : B.codeWindow with
  | none => simp [hw] at h
  | some w =>
    rw [hw] at h
    simp only [Bool.and_eq_true, decide_eq_true_eq] at h
    exact h.1.1

theorem writeHeld_iff {t : Caller b} {ptr len : BitVec b.board.bits} :
    t.writeHeld ptr len = true ↔
      (len = 0 ∨ (ptr ≤ ptr + len ∧ t.readOnlyOverlaps ptr (ptr + len) = false ∧
        (t.regionHolds ptr (ptr + len) { w := true } = true ∨ t.rangeGrants ptr len { w := true } = true))) := by
  simp only [Caller.writeHeld, Bool.or_eq_true, decide_eq_true_eq, Bool.and_eq_true, Bool.not_eq_true', and_assoc]

theorem readHeld_false_iff {t : Caller b} {ptr len : BitVec b.board.bits} (h : ptr ≤ ptr + len) :
    t.readHeld ptr len = false ↔
      len ≠ 0 ∧ t.regionHolds ptr (ptr + len) { r := true } = false ∧ t.rangeGrants ptr len { r := true } = false := by
  simp [Caller.readHeld, h]

/-- The combined check answers as the two do unless the code window alone answers the read and the write is answered:
the walk has no arm for that window. -/
theorem readable_and_writable_iff (c : Option (Caller b)) (ptr readLen writeLen : BitVec b.board.bits) :
    userReadableAndWritableOk c ptr readLen writeLen = (userReadableOk c ptr readLen && userWritableOk c ptr writeLen) ↔
      ¬ (OnlyCodeWindow c ptr readLen ∧ WriteAnswered c ptr writeLen) := by
  cases c with
  | none =>
    have hno : ¬ OnlyCodeWindow (none : Option (Caller b)) ptr readLen := by
      rintro ⟨t, ht, -⟩
      cases ht
    simp only [hno, false_and, not_false_eq_true, iff_true]
    simp only [userReadableAndWritableOk, userReadableOk, userWritableOk, threadRangeOk]
    cases b.textReadable ptr readLen <;> cases b.dataWritable ptr writeLen <;> rfl
  | some t =>
    obtain ⟨hr, hw⟩ := pairWalk_seen t ptr readLen writeLen
    have hcode : OnlyCodeWindow (some t) ptr readLen ↔
        MpuSet.codeWindowHolds b.board ptr readLen = true ∧ t.readHeld ptr readLen = false ∧
          b.textReadable ptr readLen = false := by
      constructor
      · rintro ⟨u, hu, h0, hc, hreg, hran, htext⟩
        cases hu
        exact ⟨hc, (readHeld_false_iff (codeWindowHolds_le hc)).mpr ⟨h0, hreg, hran⟩, htext⟩
      · rintro ⟨hc, hheld, htext⟩
        obtain ⟨h0, hreg, hran⟩ := (readHeld_false_iff (codeWindowHolds_le hc)).mp hheld
        exact ⟨t, rfl, h0, hc, hreg, hran, htext⟩
    have hwrite : WriteAnswered (some t) ptr writeLen ↔ b.dataWritable ptr writeLen = true ∨ t.writeHeld ptr writeLen = true := by
      rw [WriteAnswered, writeHeld_iff]
      simp only [Option.some.injEq, exists_eq_left']
    have hheld : t.readHeld ptr readLen = false → decide (readLen ≠ 0) = true := by
      intro h
      by_contra hne
      simp only [decide_eq_true_eq, not_not] at hne
      simp [Caller.readHeld, hne] at h
    rw [hcode, hwrite]
    simp only [userReadableAndWritableOk, userReadableOk, userWritableOk, threadRangeOk_read, threadRangeOk_write, hr, hw]
    cases hrh : t.readHeld ptr readLen <;> cases hwh : t.writeHeld ptr writeLen <;>
      cases b.textReadable ptr readLen <;> cases b.dataWritable ptr writeLen <;>
      cases MpuSet.codeWindowHolds b.board ptr readLen <;> simp [hrh] at hheld ⊢ <;> exact hheld

/-- A 32-bit board whose unit holds the code apart from the sets, its protection enforced. -/
def pmpBoard : Build where
  board :=
    { bits := 32
      rule := .lower
      maxRegions := 8
      encodable := fun _ _ => true
      codeWindow := some (0x20000000#32, 0x20040000#32)
      encoder := .readable
      window_readable := .inr rfl }
  translates := false
  textReadable := fun _ _ => false
  dataWritable := fun _ _ => false

/-- A thread of that board, with its stack and no other region. -/
def pmpCaller : Caller pmpBoard where
  mpu := MpuSet.ofRegions [⟨0x80001000#32, 0x1000#32, { r := true, w := true }⟩] (by decide)
  ranges := none

/-- A request sent from read-only data with no room for a reply: readable, nothing to write, and refused. -/
theorem rodata_request_refused :
    userReadableOk (some pmpCaller) 0x20001000#32 16#32 = true ∧ userWritableOk (some pmpCaller) 0x20001000#32 0#32 = true ∧
      userReadableAndWritableOk (some pmpCaller) 0x20001000#32 16#32 0#32 = false := by
  decide

end pair

end Mpu
end KickOS
