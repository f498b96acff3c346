import Mathlib.Tactic

/-! A thread's protection set (`kernel/include/kickos/mpuset.h`), the checks the kernel makes of a user pointer against
it (`kernel/syscall/syscall_mem.cc`), and what a protection unit decides of the same bytes.

Addresses and sizes are machine words, so a sum wraps. Which regions the unit has a descriptor for, and how it
decides a byte two of them cover, differ from board to board. The spawn places of the windows are no part of the set
here: no check reads them. -/

namespace KickOS
namespace Mpu

/-- The `ARCH_MPU_*` bits of a region. -/
structure Attr where
  r : Bool := false
  w : Bool := false
  x : Bool := false
  dev : Bool := false
  nocache : Bool := false
  deriving DecidableEq, Repr

/-- `arch_mpu_region`. -/
structure Region (bits : Nat) where
  base : BitVec bits
  size : BitVec bits
  attr : Attr := {}
  deriving DecidableEq, Repr

/-- `ARCH_MPU_OVERLAP_*`. -/
inductive Rule where
  | faults | higher | lower | union
  deriving DecidableEq, Repr

/-- How a unit spells a region's rights: code is programmed read-only whatever the region says of writing (`mpu_rasr`,
`pmsav8_rbar_attr`), every region may be read (`pmp_cfg`, `sysmpu_word2`), or each bit is taken as it is (RX, sim). -/
inductive Encoder where
  | code | readable | literal
  deriving DecidableEq, Repr

/-- What a board fixes. -/
structure Board where
  /-- The width of an address. -/
  bits : Nat
  rule : Rule
  /-- `KICKOS_MPU_MAX_REGIONS`. -/
  maxRegions : Nat
  /-- `arch_mpu_region_encodable`: the unit can name the region exactly. -/
  encodable : (base size : BitVec bits) → Bool
  /-- The bounds of the code every image shares, where the unit holds it apart from the sets
  (`ARCH_MPU_CODE_WINDOW_FIXED`). -/
  codeWindow : Option (BitVec bits × BitVec bits) := none
  encoder : Encoder
  /-- The one unit that holds the code apart lets every region be read. -/
  window_readable : codeWindow = none ∨ encoder = .readable

/-- The two rights the checks read. -/
structure Grant where
  read : Bool
  write : Bool
  deriving DecidableEq, Repr

def Attr.grant (a : Attr) : Grant := ⟨a.r, a.w⟩

/-- What the descriptor of a region grants the thread. -/
def Encoder.grant : Encoder → Attr → Grant
  | .code, a => ⟨true, a.w && !a.x⟩
  | .readable, a => ⟨true, a.w⟩
  | .literal, a => a.grant

namespace Board

variable (B : Board)

/-- The last byte of a region that has one. -/
def last (r : Region B.bits) : BitVec B.bits := r.base + (r.size - 1)

/-- What the unit decides of a byte of both regions; `none` where it faults the access. -/
def overlapGrant (lower : Region B.bits) (lowerSeated : Bool) (higher : Region B.bits) (higherSeated : Bool) : Option Grant :=
  let lo := lower.attr.grant
  let hi := higher.attr.grant
  if lowerSeated = false ∨ higherSeated = false then
    if higherSeated then some hi else if lowerSeated then some lo else some ⟨false, false⟩
  else
    match B.rule with
    | .higher => some hi
    | .lower => some lo
    | .union => some ⟨lo.read || hi.read, lo.write || hi.write⟩
    | .faults => none

/-- `mpu_overlap_expressible`: the unit decides every byte of both regions as the kernel's checks do. -/
def overlapExpressible (lower : Region B.bits) (lowerSeated : Bool) (higher : Region B.bits) (higherSeated : Bool) : Bool :=
  if lower.size = 0 ∨ higher.size = 0 ∨ B.last higher < lower.base ∨ B.last lower < higher.base then true
  else if lower.attr.nocache ≠ higher.attr.nocache ∨ lower.attr.dev ≠ higher.attr.dev then false
  else
    let lo := lower.attr.grant
    let hi := higher.attr.grant
    B.overlapGrant lower lowerSeated higher higherSeated = some ⟨lo.read || hi.read, lo.write && hi.write⟩

/-- `arch_mpu_encode`: which regions have a descriptor. -/
def encode (regions : List (Region B.bits)) : List Bool := regions.map fun r => B.encodable r.base r.size

end Board

/-- `MpuSet`: the image is derived from the regions, and every operation encodes it again. -/
structure MpuSet (B : Board) where
  regions : List (Region B.bits)
  image : List Bool
  encoded : image = B.encode regions
  fits : regions.length ≤ B.maxRegions

namespace MpuSet

variable {B : Board} (s : MpuSet B)

def ofRegions (regions : List (Region B.bits)) (h : regions.length ≤ B.maxRegions) : MpuSet B :=
  ⟨regions, B.encode regions, rfl, h⟩

/-- `arch_mpu_encoded_seated`. -/
def seated (i : Nat) : Bool := s.image.getD i false

/-! ### Operations -/

def clear : MpuSet B := ofRegions [] (Nat.zero_le _)

/-- `add`: false, with nothing changed, where the set is full. A region without a descriptor is carried. -/
def add (base size : BitVec B.bits) (attr : Attr) : MpuSet B × Bool :=
  if h : s.regions.length < B.maxRegions then
    (ofRegions (s.regions ++ [⟨base, size, attr⟩]) (by simpa using h), true)
  else (s, false)

def drop : MpuSet B := ofRegions s.regions.dropLast (by simpa using Nat.le_succ_of_le s.fits)

/-- `add_enforced`: a region without a descriptor is taken off again. -/
def addEnforced (base size : BitVec B.bits) (attr : Attr) : MpuSet B × Bool :=
  match s.add base size attr with
  | (_, false) => (s, false)
  | (t, true) => if t.seated (t.regions.length - 1) then (t, true) else (t.drop, false)

def retype (i : Nat) (attr : Attr) : MpuSet B :=
  ofRegions (s.regions.modify i fun r => { r with attr }) (by simpa using s.fits)

/-- The first region with exactly this base and size. -/
def find (base size : BitVec B.bits) : Option Nat := s.regions.findIdx? fun r => r.base = base && r.size = size

/-- `add_enforced_retyping`. -/
def addEnforcedRetyping (base size : BitVec B.bits) (attr : Attr) : MpuSet B × Bool :=
  match s.find base size with
  | some i =>
    let was := (s.regions.getD i ⟨0, 0, {}⟩).attr
    let t := s.retype i attr
    if t.seated i then (t, true) else (t.retype i was, false)
  | none => s.addEnforced base size attr

/-- `admits`: the unit decides every byte `r`, at slot `at`, shares with the set as the kernel's checks do. -/
def admits (r : Region B.bits) (place : Nat) (rSeated : Bool) : Bool :=
  (List.range s.regions.length).all fun i =>
    let q := s.regions.getD i ⟨0, 0, {}⟩
    if i < place then B.overlapExpressible q (s.seated i) r rSeated
    else if place < i then B.overlapExpressible r rSeated q (s.seated i)
    else true

/-- `overlaps_expressible`. -/
def overlapsExpressible : Bool :=
  (List.range s.regions.length).all fun i => s.admits (s.regions.getD i ⟨0, 0, {}⟩) i (s.seated i)

/-- `retyping_expressible`. -/
def retypingExpressible (base size : BitVec B.bits) (attr : Attr) : Bool :=
  s.admits ⟨base, size, attr⟩ ((s.find base size).getD s.regions.length) true

/-! ### The kernel's checks -/

/-- `read_only_overlaps`: a region without the right to write meets the range. -/
def readOnlyOverlaps (ptr fin : BitVec B.bits) : Bool :=
  s.regions.any fun r => !r.attr.w && decide (ptr < r.base + r.size) && decide (r.base < fin)

/-- A region of the set that holds the range answers for it, unless it is a device's. -/
def regionAnswers (ptr fin : BitVec B.bits) (need : Attr → Bool) (r : Region B.bits) : Bool :=
  let rend := r.base + r.size
  need r.attr && !r.attr.dev && decide (r.base ≤ rend) && decide (r.base ≤ ptr) && decide (fin ≤ rend)

/-- `arch_mpu_code_window_holds`. -/
def codeWindowHolds (B : Board) (ptr len : BitVec B.bits) : Bool :=
  match B.codeWindow with
  | none => false
  | some (lo, hi) =>
    let fin := ptr + len
    decide (ptr ≤ fin) && decide (lo ≤ ptr) && decide (fin ≤ hi)

/-- `user_readable_ok` where the protection is enforced and nothing is translated. -/
def userReadableOk (ptr len : BitVec B.bits) : Bool :=
  if len = 0 then true
  else
    let fin := ptr + len
    if fin < ptr then false
    else s.regions.any (regionAnswers (B := B) ptr fin Attr.r) || codeWindowHolds B ptr len

/-- `user_writable_ok` where the protection is enforced and nothing is translated. -/
def userWritableOk (ptr len : BitVec B.bits) : Bool :=
  if len = 0 then true
  else
    let fin := ptr + len
    if fin < ptr then false
    else if s.readOnlyOverlaps ptr fin then false
    else s.regions.any (regionAnswers (B := B) ptr fin Attr.w)

/-! ### The protection unit -/

/-- The descriptor of a region holds the byte. -/
def covers (B : Board) (r : Region B.bits) (a : BitVec B.bits) : Bool :=
  decide (r.size ≠ 0) && decide (r.base ≤ a) && decide (a ≤ B.last r)

/-- The attributes of the descriptors that hold the byte, in the order of their slots. -/
def deciding (a : BitVec B.bits) : List Attr :=
  (s.regions.filter fun r => B.encodable r.base r.size && covers B r a).map Region.attr

/-- What the unit lets the thread itself do to a byte, by what the descriptors say: nothing where none holds it, but for
reading the code held apart. -/
def hardware (a : BitVec B.bits) : Grant :=
  match B.rule, s.deciding a with
  | _, [] =>
    match B.codeWindow with
    | none => ⟨false, false⟩
    | some (lo, hi) => ⟨decide (lo ≤ a) && decide (a < hi), false⟩
  | .higher, x :: l => B.encoder.grant ((x :: l).getLast (List.cons_ne_nil x l))
  | .lower, x :: _ => B.encoder.grant x
  | .union, x :: l => ⟨(x :: l).any fun y => (B.encoder.grant y).read, (x :: l).any fun y => (B.encoder.grant y).write⟩
  | .faults, [x] => B.encoder.grant x
  | .faults, _ :: _ :: _ => ⟨false, false⟩

end MpuSet
end Mpu
end KickOS
