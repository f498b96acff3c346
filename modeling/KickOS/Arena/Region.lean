import KickOS.Lib.Extent

/-! The RAM region rule of the build and the bump allocator over the arena.

One descriptor names a block: the rule rounds a request to the bytes it covers and says which base it may start from. -/

namespace KickOS.Arena

variable {w : Nat}

/-- `arch_mpu_min_region`, `arch_mpu_region_pow2`, and the stride where the thread pointer is SP masked, else 0. -/
structure Seams (w : Nat) where
  min : BitVec w
  pow2 : Bool
  stride : BitVec w

/-- The doubling loop of `arch_ram_region_size`; a word is doubled less than `w` times before it wraps. -/
def doubled (want : BitVec w) : Nat → BitVec w → BitVec w
  | 0, _ => want
  | n + 1, p => if p < want then (if p <<< 1 < p then want else doubled want n (p <<< 1)) else p

def regionSize (c : Seams w) (want : BitVec w) : BitVec w :=
  if c.min = 0 then (want + 15) &&& ~~~15
  else
    let want := if want < c.min then c.min else want
    if c.pow2 = false then
      let rounded := (want + (c.min - 1)) &&& ~~~(c.min - 1)
      if rounded < want then want else rounded
    else doubled want (w + 1) 1

def regionAlign (c : Seams w) (want : BitVec w) : BitVec w :=
  let geometry := if c.min ≠ 0 then (if c.pow2 = true then regionSize c want else c.min) else 16
  if c.stride ≠ 0 ∧ regionSize c want = c.stride ∧ geometry < c.stride then c.stride else geometry

def regionAdmissible (c : Seams w) (base size : BitVec w) : Bool :=
  if size = 0 then false
  else if c.min = 0 then decide (base &&& 15 = 0) && decide (size &&& 15 = 0)
  else if size < c.min then false
  else if c.pow2 = false then decide (base &&& (c.min - 1) = 0) && decide (size &&& (c.min - 1) = 0)
  else if size &&& (size - 1) ≠ 0 then false
  else decide (base &&& (size - 1) = 0)

/-- The arena between its linker symbols, and the bytes of it that are spent. -/
structure Ram (w : Nat) where
  base : BitVec w
  total : BitVec w
  used : BitVec 32 := 0

/-- `arch_ram_alloc`: the block's address, 0 for null. -/
def Ram.alloc (c : Seams w) (a : Ram w) (size : BitVec w) : Ram w × BitVec w :=
  if size = 0 then (a, 0)
  else
    let rsz := regionSize c size
    let ralign := regionAlign c size
    let cur := a.base + a.used.setWidth w
    let aligned := (cur + (ralign - 1)) &&& ~~~(ralign - 1)
    let off := aligned - a.base
    if cur ≤ aligned ∧ off ≤ a.total ∧ rsz ≤ a.total - off then ({ a with used := (off + rsz).setWidth 32 }, aligned) else (a, 0)

end KickOS.Arena
