import KickOS.Range.Model
import KickOS.Lib.Sweep

/-! The physical frame allocator: a bitmap in the first frames of its own range, scanned a word at a time.

Indexes of frames are naturals: those the allocator computes lie below `frames` plus the bits of a word. -/

namespace KickOS.Frame

open Range (isPow2)

/-- Bit `i` of the bitmap stands for frame `i`; `bits` is the memory from the range's base on. -/
structure FrameAllocator (w : Nat) where
  bits : Nat → BitVec 8
  base : Nat := 0
  granule : Nat := 0
  frames : Nat := 0
  reserved : Nat := 0
  usable : Nat := 0
  free : Nat := 0
  hint : Nat := 0

def fill (bits : Nat → BitVec 8) (n : Nat) (v : BitVec 8) : Nat → BitVec 8 := fun i => if i < n then v else bits i

/-- The bitmap of a range none of whose frames is handed out. -/
def initBits (bits : Nat → BitVec 8) (bitmapBytes reserved : Nat) : Nat → BitVec 8 :=
  let bits := fill (fill bits bitmapBytes 0) (reserved / 8) 0xff
  if reserved % 8 ≠ 0 then Function.update bits (reserved / 8) (1#8 <<< (reserved % 8) - 1) else bits

namespace FrameAllocator

variable {w : Nat}

/-- `init`, over memory that holds anything. -/
def init (bits : Nat → BitVec 8) (base size granule : BitVec w) : FrameAllocator w × Bool :=
  if base = 0 ∨ isPow2 granule = false then ({ bits := bits }, false)
  else if base &&& (granule - 1) ≠ 0 then ({ bits := bits }, false)
  else
    let frames := size / granule
    if frames = 0 then ({ bits := bits }, false)
    else
      let bitmapBytes := (frames + 7) / 8
      let reserved := (bitmapBytes + granule - 1) / granule
      if frames ≤ reserved then ({ bits := bits }, false)
      else
        ({ bits := initBits bits bitmapBytes.toNat reserved.toNat
           base := base.toNat
           granule := granule.toNat
           frames := frames.toNat
           reserved := reserved.toNat
           usable := (frames - reserved).toNat
           free := (frames - reserved).toNat
           hint := reserved.toNat }, true)

def bit (a : FrameAllocator w) (i : Nat) : Bool := (a.bits (i / 8)).getLsbD (i % 8)

def indexOf (a : FrameAllocator w) (addr : BitVec w) : Option Nat :=
  if a.granule = 0 ∨ addr.toNat < a.base then none
  else
    let off := addr.toNat - a.base
    if off &&& (a.granule - 1) ≠ 0 then none
    else if a.frames ≤ off / a.granule then none
    else some (off / a.granule)

def isAllocated (a : FrameAllocator w) (addr : BitVec w) : Bool :=
  match a.indexOf addr with
  | none => false
  | some i => a.bit i

/-- `word_at`: the bytes from `p` on, the first in the low bits. -/
def wordAt (a : FrameAllocator w) (p : Nat) : BitVec w :=
  (List.range (w / 8)).foldl (fun v k => v ||| (a.bits (p + k)).setWidth w <<< (8 * k)) 0

def scanWord (a : FrameAllocator w) (widx : Nat) : BitVec w :=
  let first := widx * w
  if w ≤ a.frames - first then a.wordAt (widx * (w / 8))
  else
    -- bits past the last frame are stored as zero and read as allocated
    (List.range (w / 8)).foldl
      (fun v k =>
        let b := widx * (w / 8) + k
        if (a.frames + 7) / 8 ≤ b then v else v ||| (a.bits b).setWidth w <<< (8 * k))
      (BitVec.allOnes w <<< (a.frames - first))

def address (a : FrameAllocator w) (i : Nat) : BitVec w := BitVec.ofNat w (a.base + i * a.granule)

def setBit (bits : Nat → BitVec 8) (j : Nat) : Nat → BitVec 8 :=
  Function.update bits (j / 8) (bits (j / 8) ||| 1#8 <<< (j % 8))

def clearBit (bits : Nat → BitVec 8) (j : Nat) : Nat → BitVec 8 :=
  Function.update bits (j / 8) (bits (j / 8) &&& ~~~(1#8 <<< (j % 8)))

def takeOne (a : FrameAllocator w) (j : Nat) : FrameAllocator w × BitVec w :=
  ({ a with bits := setBit a.bits j, free := a.free - 1, hint := j + 1 }, a.address j)

def takeRun (a : FrameAllocator w) (first pages : Nat) : FrameAllocator w × BitVec w :=
  ({ a with
     bits := (List.range' first pages).foldl setBit a.bits
     free := a.free - pages
     hint := if a.hint < first + pages then first + pages else a.hint }, a.address first)

/-- One pass of `alloc`: the first free frame of the words from `i` on that start below `stop`. -/
def scan (a : FrameAllocator w) (stop i : Nat) : Option Nat :=
  if i < stop ∧ 0 < w then
    let first := i / w * w
    let freeBits := ~~~a.scanWord (i / w) &&& BitVec.allOnes w <<< (i - first)
    if freeBits ≠ 0 then some (first + freeBits.ctz.toNat) else a.scan stop (first + w)
  else none
termination_by stop - i
decreasing_by
  have h := Nat.div_add_mod i w
  have h' := Nat.mod_lt i (show 0 < w by omega)
  rw [mul_comm] at h
  omega

def alloc (a : FrameAllocator w) : FrameAllocator w × BitVec w :=
  if a.free = 0 then (a, 0)
  else if a.hint < a.frames ∧ a.bit a.hint = false then a.takeOne a.hint
  else
    match a.scan a.frames a.hint with
    | some j => a.takeOne j
    | none =>
      match a.scan a.hint a.reserved with
      | some j => a.takeOne j
      | none => (a, 0)

/-- The taken frames of a word in turn: where a run is complete, or how many frames are free below which place. -/
def sweepWord (pages first : Nat) (taken : BitVec w) (run p : Nat) : Nat ⊕ (Nat × Nat) :=
  if taken ≠ 0 then
    let q := first + taken.ctz.toNat
    if pages ≤ run + (q - p) then .inl (p - run) else sweepWord pages first (taken &&& (taken - 1)) 0 (q + 1)
  else .inr (run, p)
termination_by taken.toNat
decreasing_by exact Lib.Sweep.and_pred_lt (by assumption)

def sweep (a : FrameAllocator w) (pages run i : Nat) : Option Nat :=
  if i < a.frames ∧ 0 < w then
    let first := i / w * w
    let above := BitVec.allOnes w <<< (i - first)
    let taken := a.scanWord (i / w) &&& above
    if taken = above then a.sweep pages 0 (first + w)
    else
      match sweepWord pages first taken run i with
      | .inl s => some s
      | .inr (run, p) =>
        if pages ≤ run + (first + w - p) then some (p - run) else a.sweep pages (run + (first + w - p)) (first + w)
  else none
termination_by a.frames - i
decreasing_by
  all_goals
    have h := Nat.div_add_mod i w
    have h' := Nat.mod_lt i (show 0 < w by omega)
    rw [mul_comm] at h
    omega

def allocRun (a : FrameAllocator w) (pages : BitVec w) : FrameAllocator w × BitVec w :=
  if pages = 0 ∨ a.free < pages.toNat then (a, 0)
  else
    match a.sweep pages.toNat 0 a.reserved with
    | some s => a.takeRun s pages.toNat
    | none => (a, 0)

def release (a : FrameAllocator w) (addr : BitVec w) : FrameAllocator w × Bool :=
  match a.indexOf addr with
  | none => (a, false)
  | some i =>
    if i < a.reserved then (a, false)
    else if a.bit i = false then (a, false)
    else ({ a with bits := clearBit a.bits i, free := a.free + 1, hint := if i < a.hint then i else a.hint }, true)

end FrameAllocator

/-- An allocator with the frames handed out and not given back. -/
structure St (w : Nat) where
  pool : FrameAllocator w
  held : Finset (BitVec w) := ∅

inductive Op (w : Nat)
  | alloc
  | allocRun (pages : BitVec w)
  | release (addr : BitVec w)

def St.step {w : Nat} (s : St w) : Op w → St w
  | .alloc =>
    let r := s.pool.alloc
    { pool := r.1, held := if r.2 = 0 then s.held else insert r.2 s.held }
  | .allocRun pages =>
    let r := s.pool.allocRun pages
    { pool := r.1
      held :=
        if r.2 = 0 then s.held
        else s.held ∪ (Finset.range pages.toNat).image fun k => r.2 + BitVec.ofNat w (k * s.pool.granule) }
  | .release addr =>
    let r := s.pool.release addr
    { pool := r.1, held := if r.2 then s.held.erase addr else s.held }

def St.run {w : Nat} (s : St w) (ops : List (Op w)) : St w := ops.foldl St.step s

end KickOS.Frame
