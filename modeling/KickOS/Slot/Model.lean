import KickOS.Lib.TailList

/-! The generational slot pool.

A slot is live once it is claimed and while its node is off the free list: neither is stored. A handle packs the low half of the
slot's generation above its index, and a release bumps the generation. -/

namespace KickOS.Slot

open Lib

def handlePack (gen : BitVec 16) (index : BitVec 32) : BitVec 32 := (gen.setWidth 32 <<< 16) ||| index

def handleIndex (handle : BitVec 32) : BitVec 32 := handle &&& 0xffff#32

def handleGen (handle : BitVec 32) : BitVec 16 := (handle >>> 16).setWidth 16

/-- The width of a pool, below the all-ones index. -/
structure SlotArrays where
  count : Nat
  narrow : count < 0xffff

/-- The free list, and the generation of each slot. -/
structure SlotPool where
  fresh : BitVec 16 := 0
  free : TailList Nat := {}
  gen : Nat → BitVec 32 := fun _ => 0

def slotOverBudget : Int := -2

/-- `slot_claim`, `admitted` the answer of `task_admit`. -/
def slotClaim (a : SlotArrays) (p : SlotPool) (admitted : Bool) : SlotPool × Int :=
  if admitted = false then (p, slotOverBudget)
  else if p.fresh.toNat < a.count then ({ p with fresh := p.fresh + 1 }, (p.fresh.toNat : Int))
  else
    match p.free.popFront with
    | (_, none) => (p, -1)
    | (free, some n) => ({ p with free := free }, (n : Int))

def slotLive (p : SlotPool) (index : BitVec 32) : Bool :=
  decide (index.toNat < p.fresh.toNat) && !p.free.holds index.toNat

def slotRelease (p : SlotPool) (handle : BitVec 32) : SlotPool :=
  let index := handleIndex handle
  if slotLive p index then
    { p with
      gen := Function.update p.gen index.toNat (p.gen index.toNat + 1)
      free := p.free.pushBack index.toNat }
  else p

def slotLiveIndex (p : SlotPool) (handle : BitVec 32) : Int :=
  let index := handleIndex handle
  if slotLive p index = false ∨ (p.gen index.toNat).setWidth 16 ≠ handleGen handle then -1 else index.toNat

/-- `SlotPool::handle_for`. -/
def handleFor (a : SlotArrays) (p : SlotPool) (index : BitVec 32) : BitVec 32 :=
  if a.count ≤ index.toNat then BitVec.allOnes 32 else handlePack ((p.gen index.toNat).setWidth 16) index

/-- A call on the pool. -/
inductive Op
  | claim (admitted : Bool)
  | release (handle : BitVec 32)

/-- A pool with the slots that claims answered and those that were released so far, each in order. -/
structure St where
  pool : SlotPool := {}
  claimed : List Nat := []
  released : List Nat := []

/-- A release counts where the slot is live, as that of a live handle is. -/
def St.step (a : SlotArrays) (s : St) : Op → St
  | .claim admitted =>
    let r := slotClaim a s.pool admitted
    { s with pool := r.1, claimed := if 0 ≤ r.2 then s.claimed ++ [r.2.toNat] else s.claimed }
  | .release handle =>
    { s with
      pool := slotRelease s.pool handle
      released := if slotLive s.pool (handleIndex handle) then s.released ++ [(handleIndex handle).toNat] else s.released }

def St.run (a : SlotArrays) (s : St) (ops : List Op) : St := ops.foldl (St.step a) s

/-- A slot that was claimed more often than released. -/
def St.Live (s : St) (i : Nat) : Prop := s.released.count i < s.claimed.count i

instance (s : St) (i : Nat) : Decidable (s.Live i) := inferInstanceAs (Decidable (_ < _))

end KickOS.Slot
