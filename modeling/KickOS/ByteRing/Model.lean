import Mathlib.Tactic

/-! The byte ring between the two threads of a driver (`kos_byte_ring`): one producer, one consumer, and no lock.

Every load and every store of an index or of a byte is a step of its own. Beside the ring the state keeps, for the
statements only, the bytes that were accepted and removed, and for each push the room there was when it loaded the tail.
-/

namespace KickOS.ByteRing

/-- `kos_byte_ring`, with its buffer. -/
structure Ring where
  size : BitVec 32
  mask : BitVec 32
  head : BitVec 32 := 0
  tail : BitVec 32 := 0
  buf : Nat → UInt8

/-- `kos_byte_ring_init`: a size it refuses stays 0. -/
def Ring.init (size : BitVec 32) (buf : Nat → UInt8) : Ring :=
  if size < 2 ∨ size &&& (size - 1) ≠ 0 then { size := 0, mask := 0, buf := buf } else
    { size := size, mask := size - 1, buf := buf }

/-- `kos_byte_ring_used`, of the indices it loaded. -/
def usedOf (mask head tail : BitVec 32) : BitVec 32 := (head - tail) &&& mask

/-- `kos_byte_ring_space`. -/
def spaceOf (r : Ring) (head tail : BitVec 32) : BitVec 32 := if r.size = 0 then 0 else r.mask - usedOf r.mask head tail

def next (r : Ring) (idx : BitVec 32) : BitVec 32 := (idx + 1) &&& r.mask

def clamp (n most : BitVec 32) : BitVec 32 := if most < n then most else n

/-- A push past its clamp: what it was called with, what it takes of it, and the room there was. -/
structure Push where
  src : List UInt8
  took : List UInt8
  seen : Nat

/-- The next step of `kos_byte_ring_push`, with what it has loaded. -/
inductive Producer where
  | idle
  | head (src : List UInt8)
  | tail (src : List UInt8) (head : BitVec 32)
  | index (p : Push)
  /-- Stores byte `done`, or `head` past the last one. -/
  | store (p : Push) (idx : BitVec 32) (done : Nat)

inductive Op where
  | pop (n : BitVec 32)
  | popOne
  | peek (n : BitVec 32)
  | drop (n : BitVec 32)
  deriving DecidableEq

/-- The next step of the consumer's call. -/
inductive Consumer where
  | idle
  | head (op : Op)
  | tail (op : Op) (head : BitVec 32)
  | index (op : Op) (n : BitVec 32)
  /-- Loads one more byte, or stores `tail` past the last one. -/
  | load (op : Op) (n idx : BitVec 32) (got : List UInt8)
  /-- The store of `drop`. -/
  | drop (n tail : BitVec 32)

/-- What a call goes on with, of the bytes there are. -/
def Op.counted (used : BitVec 32) : Op → Consumer
  | .pop n => .index (.pop n) (clamp n used)
  | .popOne => if used = 0 then .idle else .index .popOne 1
  | .peek n => .index (.peek n) (clamp n used)
  | .drop n => .index (.drop n) (clamp n used)

structure St where
  ring : Ring
  producer : Producer := .idle
  consumer : Consumer := .idle
  accepted : List UInt8 := []
  removed : List UInt8 := []
  pushes : List Push := []

inductive Act where
  | push (src : List UInt8)
  | produce
  | call (op : Op)
  | consume

namespace St

variable (x : St)

/-- The bytes the ring holds, from the tail on. -/
def held : List UInt8 :=
  (List.range (usedOf x.ring.mask x.ring.head x.ring.tail).toNat).map fun i =>
    x.ring.buf ((x.ring.tail + BitVec.ofNat 32 i) &&& x.ring.mask).toNat

def room : Nat := x.ring.mask.toNat - (x.accepted.length - x.removed.length)

def produce : Option St :=
  match x.producer with
  | .idle => none
  | .head src => some { x with producer := .tail src x.ring.head }
  | .tail src head =>
    let n := clamp (BitVec.ofNat 32 src.length) (spaceOf x.ring head x.ring.tail)
    some { x with producer := .index ⟨src, src.take n.toNat, x.room⟩ }
  | .index p => some { x with producer := .store p x.ring.head 0 }
  | .store p idx done =>
    match p.took[done]? with
    | some b =>
      some { x with
        ring := { x.ring with buf := Function.update x.ring.buf idx.toNat b }
        producer := .store p (next x.ring idx) (done + 1) }
    | none =>
      some { x with
        ring := { x.ring with head := idx }
        producer := .idle
        accepted := x.accepted ++ p.took
        pushes := x.pushes ++ [p] }

def consume : Option St :=
  match x.consumer with
  | .idle => none
  | .head op => some { x with consumer := .tail op x.ring.head }
  | .tail op head => some { x with consumer := Op.counted (usedOf x.ring.mask head x.ring.tail) op }
  | .index op n =>
    match op with
    | .drop _ => some { x with consumer := .drop n x.ring.tail }
    | op => some { x with consumer := .load op n x.ring.tail [] }
  | .load op n idx got =>
    if got.length < n.toNat then some { x with consumer := .load op n (next x.ring idx) (got ++ [x.ring.buf idx.toNat]) }
    else
      match op with
      | .peek _ => some { x with consumer := .idle }
      | _ => some { x with ring := { x.ring with tail := idx }, consumer := .idle, removed := x.removed ++ got }
  | .drop n tail =>
    some { x with
      ring := { x.ring with tail := (tail + n) &&& x.ring.mask }
      consumer := .idle
      removed := x.removed ++ x.held.take n.toNat }

def step : Act → Option St
  | .push src =>
    match x.producer with
    | .idle => if src.length < 2 ^ 32 then some { x with producer := .head src } else none
    | _ => none
  | .produce => x.produce
  | .call op =>
    match x.consumer with
    | .idle => some { x with consumer := .head op }
    | _ => none
  | .consume => x.consume

end St

/-- A run from a ring that was just set up. -/
inductive Reachable (size : BitVec 32) : St → Prop where
  | init (buf : Nat → UInt8) : Reachable size { ring := Ring.init size buf }
  | step {x y : St} (a : Act) (hx : Reachable size x) (hs : x.step a = some y) : Reachable size y

end KickOS.ByteRing
