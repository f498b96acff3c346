import KickOS.Arena.Region
import KickOS.Slot.Model

/-! Which task reserved which arena block (`kernel/mem/ramown.cc`).

The records below `fresh` are taken and nothing frees one. The records a task record pays for are chained from its head, those of
its earlier incarnations with them: a death moves the generation and leaves the chain. -/

namespace KickOS.Ramown

open Arena Lib

variable {w : Nat}

/-- One reservation; `next` is an index plus one. -/
structure RamBlock (w : Nat) where
  base : BitVec w := 0
  size : BitVec 32 := 0
  owner : BitVec 32 := 0
  next : BitVec 16 := 0

/-- The region rule, whether the region unit is programmed, and the widths of the two pools. -/
structure Board (w : Nat) where
  seams : Seams w
  mpu : Bool
  tasks : Nat
  count : Nat
  tasks_narrow : tasks < 0xffff
  count_narrow : count < 0xffff

/-- The arena, the table of records, and of each task record the head of its chain and its generation. -/
structure Table (w : Nat) where
  arena : Ram w
  blocks : Nat → RamBlock w := fun _ => {}
  fresh : BitVec 16 := 0
  head : Nat → BitVec 16 := fun _ => 0
  gen : Nat → BitVec 16 := fun _ => 0

/-- What a task's declaration budgets, `RAM_BLOCKS` and `RAM_BYTES`. -/
structure Budget where
  blocks : BitVec 32
  bytes : BitVec 32

def record? (link : BitVec 16) : Option Nat := if link = 0 then none else some (link.toNat - 1)

namespace Table

variable (b : Board w) (s : Table w)

def next (i : Nat) : Option Nat := record? (s.blocks i).next

/-- The records a walk from the head of a task record visits. -/
def chain (t : Nat) : List Nat := Linked.nodes s.next b.count (record? (s.head t))

/-- `task_handle`; a task of no pool slot has `KOS_TASK_NONE`. -/
def taskHandle : Option Nat → BitVec 32
  | none => 0
  | some t => Slot.handlePack (s.gen t) (BitVec.ofNat 32 t + 1)

/-- `task_ram_usage` of `RAM_BLOCKS`. -/
def usedBlocks (t : Nat) : BitVec 32 := (s.chain b t).foldl (fun used _ => used + 1) 0

/-- `task_ram_usage` of `RAM_BYTES`. -/
def usedBytes (t : Nat) : BitVec 32 := (s.chain b t).foldl (fun used i => used + (s.blocks i).size) 0

end Table

/-- `task_admit`. -/
def taskAdmit (budget used n : BitVec 32) : Bool := decide (used ≤ budget) && decide (n ≤ budget - used)

namespace Table

variable (b : Board w) (s : Table w)

/-- `admit`. -/
def admits (t : Nat) (budget : Budget) (rsz : BitVec w) : Bool :=
  taskAdmit budget.blocks (s.usedBlocks b t) 1 && taskAdmit budget.bytes (s.usedBytes b t) (rsz.setWidth 32)

def freeBlock : Option Nat := if b.count ≤ s.fresh.toNat then none else some s.fresh.toNat

def record (t i : Nat) (base : BitVec w) (size : BitVec 32) : Table w :=
  { s with
    fresh := s.fresh + 1
    blocks := Function.update s.blocks i { base, size, owner := s.taskHandle (some t), next := s.head t }
    head := Function.update s.head t (BitVec.ofNat 16 (i + 1)) }

/-- `ram_owner_alloc`: the block's address, 0 for null. -/
def alloc (owner : Option (Fin b.tasks)) (size : BitVec w) (budget : Budget) : Table w × BitVec w :=
  match owner with
  | none => (s, 0)
  | some t =>
    if s.taskHandle (some t) = 0 ∨ size = 0 then (s, 0)
    else
      let rsz := regionSize b.seams size
      if rsz ≠ (rsz.setWidth 32).setWidth w then (s, 0)
      -- the budget and the slot before the arena is spent
      else if s.admits b t budget rsz = false then (s, 0)
      else
        match s.freeBlock b with
        | none => (s, 0)
        | some i =>
          let r := s.arena.alloc b.seams size
          if r.2 = 0 then ({ s with arena := r.1 }, 0)
          else (({ s with arena := r.1 } : Table w).record t i r.2 (rsz.setWidth 32), r.2)

end Table

/-- `ram_grant_extent`. -/
def Board.grantExtent (b : Board w) (size : BitVec w) : BitVec w := if b.mpu then regionSize b.seams size else size

/-- A window of memory, which does not pass the last address. -/
structure Window (w : Nat) where
  base : BitVec w
  size : BitVec w
  fits : base.toNat + size.toNat ≤ 2 ^ w

namespace Table

variable (b : Board w) (s : Table w)

/-- `ram_owner_nameable`. -/
def nameable (owner : Option (Fin b.tasks)) (base size : BitVec w) : Bool :=
  match owner with
  | none => false
  | some t =>
    let tag := s.taskHandle (some t)
    if tag = 0 ∨ size = 0 then false
    else
      let rsz := b.grantExtent size
      if rsz = 0 then false
      else
        let last := base + rsz - 1
        if last < base then false
        else
          (s.chain b t).any fun i =>
            decide ((s.blocks i).owner = tag) && decide ((s.blocks i).base ≤ base) &&
              decide (last ≤ (s.blocks i).base + (s.blocks i).size.setWidth w - 1)

/-- `ram_owner_seat`, of the partition's share. -/
def seat (owner : Option (Fin b.tasks)) (share : Window w) (budget : Budget) : Table w × Bool :=
  match owner with
  | none => (s, false)
  | some t =>
    if s.taskHandle (some t) = 0 ∨ share.size = 0 ∨ regionSize b.seams share.size ≠ share.size ∨
        share.size ≠ (share.size.setWidth 32).setWidth w ∨ regionAdmissible b.seams share.base share.size = false then
      (s, false)
    else if s.admits b t budget share.size = false then (s, false)
    else
      match s.freeBlock b with
      | none => (s, false)
      | some i => (s.record t i share.base (share.size.setWidth 32), true)

/-- `free_task`: the generation moves, and `task_fill` keeps it. -/
def freeTask (t : Nat) : Table w := { s with gen := Function.update s.gen t (s.gen t + 1) }

end Table

/-- A call on the records, the death of a task, or an allocation of the kernel's own. -/
inductive Op (b : Board w)
  | alloc (owner : Option (Fin b.tasks)) (size : BitVec w) (budget : Budget)
  | seat (owner : Option (Fin b.tasks)) (share : Window w) (budget : Budget)
  | free (t : Fin b.tasks)
  | kernel (size : BitVec w)

/-- A block as the call that recorded it answered: for which task record, at which of its incarnations, and whether the arena gave
it. -/
structure Entry (w : Nat) where
  task : Nat
  life : Nat
  base : BitVec w
  size : BitVec w
  arena : Bool

def Entry.bytes (e : Entry w) : Set Nat := Set.Ico e.base.toNat (e.base.toNat + e.size.toNat)

/-- The records, with every block recorded so far in order and how often each task record died. -/
structure St (w : Nat) where
  table : Table w
  log : List (Entry w) := []
  deaths : Nat → Nat := fun _ => 0

namespace St

variable {b : Board w}

/-- The blocks a call recorded, none where it refused. -/
def noted (s : St w) (owner : Option (Fin b.tasks)) (base size : BitVec w) (arena took : Bool) : List (Entry w) :=
  match owner with
  | some t => if took then [⟨t, s.deaths t, base, size, arena⟩] else []
  | none => []

def step (s : St w) : Op b → St w
  | .alloc owner size budget =>
    let r := s.table.alloc b owner size budget
    { s with table := r.1, log := s.log ++ s.noted owner r.2 (regionSize b.seams size) true (decide (r.2 ≠ 0)) }
  | .seat owner share budget =>
    let r := s.table.seat b owner share budget
    { s with table := r.1, log := s.log ++ s.noted owner share.base share.size false r.2 }
  | .free t => { s with table := s.table.freeTask t, deaths := Function.update s.deaths t (s.deaths t + 1) }
  | .kernel size => { s with table := { s.table with arena := (s.table.arena.alloc b.seams size).1 } }

def run (s : St w) (ops : List (Op b)) : St w := ops.foldl St.step s

/-- The records of the blocks that were recorded for a task record, in order. -/
def recorded (s : St w) (t : Nat) : List Nat := (List.range s.log.length).filter fun i => (s.log[i]?.map Entry.task) = some t

end St

end KickOS.Ramown
