import KickOS.Kernel.Thread
import KickOS.Life.Lineage
import KickOS.Spawn.Slab

/-! `spawn_locked` of `kernel/syscall/syscall_thread.cc` on a board without translated address spaces, with everything it
takes on its way: a thread slot, a stack, a run of the slab and references.

What is asked of the memory map, of the architecture and of the caller's memory is drawn by the caller of the model. -/

namespace KickOS
namespace Spawn
open Life
open Function (update)

structure Board where
  geometry : Geometry
  flat : geometry.translating = false
  /-- `cap_dir_length`. -/
  dirLength : Nat
  /-- `cap_chunk_count`. -/
  chunks : Nat
  /-- `cap_root_width`. -/
  rootWidth : Nat
  root_fits : kcapChunksFor rootWidth ≤ dirLength
  /-- `KICKOS_PRIO_MIN` and `KICKOS_PRIO_MAX`. -/
  prioMin : Nat
  prioMax : Nat
  /-- `task_cap_width`. -/
  taskWidth : Nat → Nat
  /-- `task_prio_ceiling`. -/
  prioCeiling : Nat → Nat
  /-- `task_budget` of `THREADS`. -/
  threadBudget : Nat → Nat
  /-- `task_budget` of `CAP_SLOTS`. -/
  slotBudget : Nat → Nat

/-- The parameters of a spawn, and what the code around answers on its way. -/
structure Ask where
  /-- The task a create made for its entry thread. -/
  into : Option Nat := none
  prio : Nat := 1
  /-- What `spawn_stack_admit` and `spawn_windows_admit` refuse with. -/
  placed : Option Errno := none
  authority : Nat := 0
  /-- The caller's grant list, or what its copy failed with. -/
  grants : Except Errno (List Grant) := .ok []
  /-- What `sched_admit_mask` refuses with. -/
  cores : Option Errno := none
  capWidth : Nat := 0
  /-- The stack of the caller, none for one of the kernel's. -/
  stack : Option Nat := none
  /-- What `arch_ram_alloc` answers. -/
  block : Option Nat := none
  /-- `tls_stack_admissible`. -/
  strided : Bool := true
  /-- What the argument block is refused with. -/
  args : Option Errno := none
  /-- `overlaps_expressible`. -/
  expressible : Bool := true
  /-- `task_object_admit_grants`. -/
  room : Bool := true
  /-- The entry thread of a driver stays out of the scheduler. -/
  driver : Bool := false

def Ask.life (a : Ask) (passes : Bool) : SpawnAsk where
  into := a.into
  stack := a.stack
  block := a.block
  passes := passes
  driver := a.driver

structure Machine where
  pools : Pools
  /-- The objects, the tasks and the records of the threads, without the entries of their tables. -/
  base : Kernel
  irqs : Pool
  /-- `task_members`. -/
  members : Nat → List Nat
  /-- The list of a task its `CAP_SLOTS` usage is summed over. -/
  capRuns : Nat → List Nat
  slab : Slab

namespace Machine

variable (b : Board) (m : Machine)

/-- The table of a slot, read through its row. -/
def table (i : Nat) : CapTable :=
  { (m.base.thr i).caps with
    slots := m.slab.entry i
    dir := (List.range b.dirLength).filterMap (m.slab.rows i) }

def kernel : Kernel := { m.base with thr := fun i => { m.base.thr i with caps := m.table b i } }

/-- `cap_obj_generation`, with the interrupt bindings. -/
def capObjGeneration (type : CapType) (obj : Nat) : Nat :=
  if type = .irq then m.irqs.generation obj else m.base.capObjGeneration type obj

def capObjLive (e : CapEntry) : Bool := m.capObjGeneration e.type e.obj = e.objGen

/-- `kcap_width_for`. -/
def kcapWidthFor (width : Nat) : Nat := kcapChunksFor width * kcapChunkSlots

/-- `task_usage` of `THREADS`. -/
def threadsUsed (tk : Nat) : Nat := (m.pools.tasks tk).refcount + (m.pools.tasks tk).sweeping

/-- `task_usage` of `CAP_SLOTS`. -/
def slotsUsed (tk : Nat) : Nat := ((m.capRuns tk).map fun i => kcapWidthFor (m.base.thr i).caps.width).sum

/-- `task_admit`. -/
def taskAdmit (used budget n : Nat) : Bool := used ≤ budget && n ≤ budget - used

/-- `spawn_admit`. -/
def spawnAdmit (c : Nat) (a : Ask) : Except Errno Unit :=
  if a.prio < b.prioMin ∨ b.prioMax < a.prio then .error .einval
  else
    match a.placed with
    | some e => .error e
    | none => m.base.spawnAuthorityAdmit c a.authority

/-- The check of the grant at place `ci`. -/
def grantCheck (c ci : Nat) (g : Grant) : Except Errno Seat :=
  match capLookup (m.table b c) g.cap with
  | none => .error .ebadf
  | some idx =>
    let e := m.slab.entry c idx
    if m.capObjLive e = false then .error .ebadf
    else if e.rights.transfer = false then .error .eacces
    else
      -- Narrow-only, but for the receive right the handout right of an endpoint may seat.
      let grantable := if e.type = .endpoint ∧ e.rights.handout then { e.rights with wait := true } else e.rights
      if grantable.has g.mask = false then .error .eacces
      else
        let dest := if g.dest = 0 then capFirstDynamic + ci else g.dest
        .ok { type := e.type, obj := e.obj, rights := g.mask, badge := e.badge, dest }

def grantChecks (c ci : Nat) : List Grant → Except Errno (List Seat)
  | [] => .ok []
  | g :: rest =>
    match m.grantCheck b c ci g with
    | .error e => .error e
    | .ok seat =>
      match grantChecks c (ci + 1) rest with
      | .error e => .error e
      | .ok seats => .ok (seat :: seats)

def seats (c : Nat) (a : Ask) : Except Errno (List Seat) :=
  match a.grants with
  | .error e => .error e
  | .ok grants => m.grantChecks b c 0 grants

/-- `obj_ref_inc`. -/
def objRefInc (g : Seat) : Option Machine :=
  if g.type = .irq then
    match m.irqs.liveIndex g.obj with
    | none => some m
    | some x =>
      if m.irqs.refs x = Kernel.refMax then none else some { m with irqs := m.irqs.setRefs x (m.irqs.refs x + 1) }
  else (m.base.objRefInc g.type g.obj g.rights).map fun k => { m with base := k }

/-- `obj_ref_undo`. -/
def objRefUndo (g : Seat) : Machine :=
  if g.type = .irq then
    match m.irqs.liveIndex g.obj with
    | none => m
    | some x =>
      { m with
        base := m.base.assert (1 < m.irqs.refs x)
        irqs := m.irqs.setRefs x (m.irqs.refs x - 1) }
  else { m with base := m.base.objRefUndo g.type g.obj g.rights }

/-- The references of a grant list, one after the other; a refusal undoes those taken, the first one first. -/
def grantRefs (done : List Seat) : List Seat → Machine → Except Machine Machine
  | [], m => .ok m
  | g :: rest, m =>
    match m.objRefInc g with
    | some m => grantRefs (done ++ [g]) rest m
    | none => .error (done.foldl objRefUndo m)

/-- `cap_slab_detach` of the row of a slot. -/
def detach (i : Nat) : Machine := { m with slab := m.slab.detach b.dirLength i }

/-- `spawn_unwind`. -/
def spawnUnwind (tk i : Nat) (block : Option Nat) : Machine :=
  { m with pools := m.pools.spawnUnwind b.geometry tk i block }

/-- The part of `spawn_locked` that cannot fail. -/
def commit (c tk i base : Nat) (owned : Bool) (a : Ask) (width : Nat) (seats : List Seat) : Machine :=
  let caps : CapTable := { m.table b i with width, freeHead := (capRunFreeBuild {} width).freeHead, replyLive := 0, irqLive := 0 }
  let k := (m.kernel b).threadCreate i a.prio tk caps
  let k := (k.capInstallDefaults i).capSeatAuthority i a.authority
  let k := seats.foldl (fun k g =>
    k.onCaps i fun t => capInstallAt t g.dest g.obj (m.capObjGeneration g.type g.obj) g.type g.rights g.badge) k
  { m with
    pools := m.pools.spawnCommit c tk i base owned a.driver
    base := if a.driver then k else k.makeReady i
    members := update m.members tk (i :: m.members tk)
    capRuns := update m.capRuns tk (i :: m.capRuns tk)
    slab := m.slab.store b.dirLength i (k.thr i).caps.slots }

/-- Past the stack: the checks of the stack, the run of the slab and the references. -/
def spawnRun (c tk i base : Nat) (owned : Bool) (a : Ask) (width : Nat) (seats : List Seat) : Machine × Answer :=
  let block := if owned then some base else none
  if a.strided = false then (m.spawnUnwind b tk i block, .error .einval)
  else
    match a.args with
    | some e => (m.spawnUnwind b tk i block, .error e)
    | none =>
      if a.expressible = false then (m.spawnUnwind b tk i block, .error .einval)
      else
        match m.slab.attach b.dirLength i width with
        | (false, slab) => (({ m with slab } : Machine).spawnUnwind b tk i block, .error .enomem)
        | (true, slab) =>
          let m : Machine := { m with slab }
          if seats.any fun g => width ≤ g.dest then ((m.detach b i).spawnUnwind b tk i block, .error .einval)
          else if a.room = false then ((m.detach b i).spawnUnwind b tk i block, .error .eagain)
          else
            match grantRefs [] seats m with
            | .error m => ((m.detach b i).spawnUnwind b tk i block, .error .eoverflow)
            | .ok m =>
              let m := m.commit b c tk i base owned a width seats
              (m, .ok (handlePack (m.pools.pool.gen i).toNat i))

/-- Past the claim of slot `i`. -/
def spawnInto (c tk i : Nat) (a : Ask) (width : Nat) (seats : List Seat) : Machine × Answer :=
  match m.pools.pool.stackFor b.geometry.translating (a.life true) with
  | (none, p) => (({ m with pools := { m.pools with pool := p } } : Machine).spawnUnwind b tk i none, .error .enomem)
  | (some (base, owned), p) =>
    ({ m with pools := { m.pools with pool := p } } : Machine).spawnRun b c tk i base owned a width seats

/-- `spawn_cap_width`. -/
def spawnCapWidth (a : Ask) (tk : Nat) : Nat := if a.capWidth ≠ 0 then a.capWidth else b.taskWidth tk

/-- `spawn_locked` of the occupant of slot `c`, into task `tk`. -/
def spawnLocked (c tk : Nat) (a : Ask) : Machine × Answer :=
  match m.spawnAdmit b c a with
  | .error e => (m, .error e)
  | .ok () =>
    match m.seats b c a with
    | .error e => (m, .error e)
    | .ok seats =>
      if ¬ (seats.map Seat.dest).Nodup then (m, .error .einval)
      else if (m.base.task tk).ended then (m, .error .ebusy)
      else if b.prioCeiling tk < a.prio then (m, .error .eperm)
      else
        match a.cores with
        | some e => (m, .error e)
        | none =>
          let width := spawnCapWidth b a tk
          if width < capFirstDynamic + seats.length then (m, .error .einval)
          else if taskAdmit (m.slotsUsed tk) (b.slotBudget tk) (kcapWidthFor width) = false then (m, .error .eagain)
          else if b.dirLength < kcapChunksFor width then (m, .error .einval)
          else if taskAdmit (m.threadsUsed tk) (b.threadBudget tk) 1 = false then (m, .error .eagain)
          else
            match m.pools.pool.claim with
            | (none, _) => (m, .error .enomem)
            | (some i, p) => ({ m with pools := { m.pools with pool := p } } : Machine).spawnInto b c tk i a width seats

/-! ### The run -/

/-- The first bracket of `exit_current`. -/
def exitBegin (c t : Nat) : Machine :=
  let pools := m.pools.exitBegin b.geometry c t
  { m with
    pools
    members := if (pools.pool.slots c).task = none then update m.members t ((m.members t).erase c) else m.members }

/-- The last bracket of `exit_current`: the run goes back, and the slot is retired. -/
def exitEnd (c t : Nat) : Machine :=
  { m.detach b c with
    pools := m.pools.exitEnd c t
    base := m.base.onThr c fun x => { x with caps := {} }
    members := update m.members t ((m.members t).erase c)
    capRuns := update m.capRuns t ((m.capRuns t).erase c) }

/-- What a locked section does. The calls that move no thread slot do anything to the objects, the records and the
entries of the tables. -/
inductive Step : Machine → Machine → Prop where
  | spawn (m : Machine) (c tk : Nat) (a : Ask) (hc : Pools.Runs m.pools c)
      (htk : (a.into = none ∧ (m.pools.pool.slots c).task = some tk) ∨
        (a.into = some tk ∧ tk < b.geometry.tasks ∧ (m.pools.tasks tk).creatorTag ≠ killTagNone)) :
      Step m (m.spawnLocked b c tk a).1
  | create (m : Machine) (c t : Nat) (a : DomainAsk) (hc : Pools.Runs m.pools c) (ht : b.geometry.cores < t)
      (ht' : t < b.geometry.tasks) (hr : (m.pools.tasks t).refcount = 0) :
      Step m { m with pools := m.pools.taskCreateDeclared b.geometry t c a (m.pools.threadDomain c) }
  | drop (m : Machine) (t : Nat) (ht : t < b.geometry.tasks) : Step m { m with pools := m.pools.taskDropHold b.geometry t }
  | exitBegin (m : Machine) (c t : Nat) (hc : Pools.Runs m.pools c) (ht : (m.pools.pool.slots c).task = some t) :
      Step m (m.exitBegin b c t)
  | exitEnd (m : Machine) (c t : Nat) (hc : c < m.pools.pool.next) (hs : (m.pools.pool.slots c).state = .running)
      (hd : (m.pools.pool.slots c).dying = true) (ht : (m.pools.pool.slots c).left = some t) : Step m (m.exitEnd b c t)
  | sched (m : Machine) (c : Nat) (st : ThreadState) (hc : c < m.pools.pool.next)
      (hs : (m.pools.pool.slots c).state ≠ .exited) (hst : st ≠ .exited) :
      Step m { m with pools := m.pools.setSlot c fun x => { x with state := st } }
  | calls (m : Machine) (k : Kernel) (irqs : Pool) (cells : Nat → Nat → CapEntry) :
      Step m { m with base := k, irqs, slab := { m.slab with cells } }

end Machine

/-- `kmain` past the creation of root, whose run is the first of the slab. -/
def boot (b : Board) (base : Kernel) (irqs : Pool) : Machine where
  pools := Life.boot b.geometry
  base := base
  irqs := irqs
  members := update (fun _ => []) b.geometry.cores [rootIndex]
  capRuns := update (fun _ => []) b.geometry.cores [rootIndex]
  slab := (Slab.attach { free := List.range b.chunks } b.dirLength rootIndex b.rootWidth).2

inductive Reachable (b : Board) : Machine → Prop where
  | boot (base : Kernel) (irqs : Pool) (hr : kcapChunksFor b.rootWidth ≤ b.chunks) : Reachable b (boot b base irqs)
  | step {m m' : Machine} (hm : Reachable b m) (h : Machine.Step b m m') : Reachable b m'

end Spawn
end KickOS
