import KickOS.Life.Model

/-! Spawns, failed spawns, exits and task creations over the pools, as a transition system.

An exit is two brackets of the kernel lock with the sweep of the capabilities between them, and the sweep runs with the
lock open: other threads spawn, create and exit in between. -/

namespace KickOS
namespace Life

/-- What the caller and the code around decide of a spawn. -/
structure SpawnAsk where
  /-- The task a create made for its entry thread; a plain spawn joins the spawner's. -/
  into : Option Nat := none
  /-- The stack of the caller, none for one of the kernel's. -/
  stack : Option Nat := none
  /-- What `arch_ram_alloc`, or `ustack_alloc`, answers. -/
  block : Option Nat := none
  /-- The windows in order, true for one over memory of the spawner's domain. -/
  windows : List Bool := []
  /-- How many of them are mapped before one is refused. -/
  mapped : Nat := 0
  /-- No later check refuses. -/
  passes : Bool := true
  /-- The entry thread of a driver stays out of the scheduler. -/
  driver : Bool := false

/-- The stack of the child, and whether it is the kernel's. -/
def ThreadPool.stackFor (p : ThreadPool) (translating : Bool) (a : SpawnAsk) : Option (Nat × Bool) × ThreadPool :=
  match a.stack with
  | some b => (some (b, false), p)
  | none =>
    if translating then (a.block.map fun b => (b, true), p)
    else
      match p.stackFree with
      | b :: rest => (some (b, true), { p with stackFree := rest })
      | [] => (a.block.map fun b => (b, true), p)

namespace Pools

def setSlot (s : Pools) (c : Nat) (f : Tcb → Tcb) : Pools := { s with pool := s.pool.modify c f }

/-- `spawn_unwind`; `block` is the kernel's stack, if one was taken. -/
def spawnUnwind (g : Geometry) (s : Pools) (tk i : Nat) (block : Option Nat) : Pools :=
  let s := if g.translating then s.unmapHolder g (s.tasks tk).domain i
    else
      match block with
      | some b => { s with pool := s.pool.stackPush b }
      | none => s
  { s with pool := s.pool.release i }

/-- The window of slot `i` at `d` over memory of `own`, or over a device. -/
def spawnWindow (d own : Option Nat) (i : Nat) (memory : Bool) : Option Window :=
  d.map fun d => { place := d, holder := i, donor := if memory then own else none }

/-- `spawn_map_windows`, as far as it came. -/
def spawnMapWindows (s : Pools) (d own : Option Nat) (i : Nat) (ws : List Bool) : Pools :=
  (ws.filterMap (spawnWindow d own i)).foldl mapWindow s

/-- The commit of a spawn: `thread_create` and the join of the task. -/
def spawnCommit (s : Pools) (c tk i base : Nat) (owned driver : Bool) : Pools :=
  let t : Tcb :=
    { state := if driver then .inactive else .ready
      spawnerTag := killTagForIndex c
      task := some tk
      kstackOwned := owned
      stackBase := base
      stamp := s.births
      spawnedBy := (s.pool.slots c).stamp }
  ({ s with pool := s.pool.create i t, births := s.births + 1 } : Pools).taskRef tk

/-- The spawn of the occupant of slot `c` past the claim of slot `i`. -/
def spawnInto (g : Geometry) (s : Pools) (c tk i : Nat) (a : SpawnAsk) : Pools :=
  match s.pool.stackFor g.translating a with
  | (none, p) => ({ s with pool := p } : Pools).spawnUnwind g tk i none
  | (some (base, owned), p) =>
    let s : Pools := { s with pool := p }
    let own := s.threadDomain c
    let s := if g.translating then s.spawnMapWindows (s.tasks tk).domain own i (a.windows.take a.mapped) else s
    if (g.translating ∧ a.mapped < a.windows.length) ∨ a.passes = false then
      s.spawnUnwind g tk i (if owned then some base else none)
    else s.spawnCommit c tk i base owned a.driver

def spawn (g : Geometry) (s : Pools) (c tk : Nat) (a : SpawnAsk) : Pools :=
  match s.pool.claim with
  | (none, _) => s
  | (some i, p) => ({ s with pool := p } : Pools).spawnInto g c tk i a

/-- The windows and the stack of a dying thread go, where a backend translates. -/
def exitUnmap (g : Geometry) (s : Pools) (c : Nat) : Pools :=
  if g.translating then
    (s.unmapHolder g (s.threadDomain c) c).setSlot c fun x => { x with kstackOwned := false }
  else s

/-- The first bracket of `exit_current`, of a thread of task `t`. -/
def exitBegin (g : Geometry) (s : Pools) (c t : Nat) : Pools :=
  let s := (s.setSlot c fun x => { x with dying := true }).exitUnmap g c
  let r := s.taskRelease g t
  let s := r.2.setSlot c fun x => { x with left := some t, task := if r.1 then none else x.task }
  s.taskOrphanCreatedBy g (killTagForIndex c)

/-- The last bracket of `exit_current`, behind the sweep. -/
def exitEnd (s : Pools) (c t : Nat) : Pools :=
  let s := s.setSlot c fun x => { x with task := none, left := none }
  ({ s with pool := s.pool.retire c } : Pools).taskSweepDone t

/-- The thread of slot `c` executes outside its exit. -/
structure Runs (s : Pools) (c : Nat) : Prop where
  lt : c < s.pool.next
  running : (s.pool.slots c).state = .running
  alive : (s.pool.slots c).dying = false

inductive Step (g : Geometry) : Pools → Pools → Prop where
  | spawn (s : Pools) (c tk : Nat) (a : SpawnAsk) (hc : Runs s c) (hw : a.windows.length ≤ g.windows)
      (hm : a.mapped ≤ a.windows.length)
      (htk : (a.into = none ∧ (s.pool.slots c).task = some tk) ∨
        (a.into = some tk ∧ tk < g.tasks ∧ (s.tasks tk).creatorTag ≠ killTagNone)) : Step g s (s.spawn g c tk a)
  /-- A declaration whose record has no member. -/
  | create (s : Pools) (c t : Nat) (a : DomainAsk) (hc : Runs s c) (ht : g.cores < t) (ht' : t < g.tasks)
      (hr : (s.tasks t).refcount = 0) : Step g s (s.taskCreateDeclared g t c a (s.threadDomain c))
  | drop (s : Pools) (t : Nat) (ht : t < g.tasks) : Step g s (s.taskDropHold g t)
  | exitBegin (s : Pools) (c t : Nat) (hc : Runs s c) (ht : (s.pool.slots c).task = some t) : Step g s (s.exitBegin g c t)
  | exitEnd (s : Pools) (c t : Nat) (hc : c < s.pool.next) (hs : (s.pool.slots c).state = .running)
      (hd : (s.pool.slots c).dying = true) (ht : (s.pool.slots c).left = some t) : Step g s (s.exitEnd c t)
  /-- The scheduler moves a thread. -/
  | sched (s : Pools) (c : Nat) (st : ThreadState) (hc : c < s.pool.next) (hs : (s.pool.slots c).state ≠ .exited)
      (hst : st ≠ .exited) : Step g s (s.setSlot c fun x => { x with state := st })

end Pools

/-- `kmain` past the creation of root: an idle task a core, and root in the next record. -/
def boot (g : Geometry) : Pools where
  pool :=
    { count := g.threads
      slots := Function.update (fun _ => {}) rootIndex { state := .ready, task := some g.cores, stamp := 1 }
      next := 1 }
  tasks := fun t =>
    if t < g.cores then { domain := some kdomKernel, refcount := 1 }
    else if t = g.cores then { domain := some (if g.translating then 2 else kdomDefaultUser), refcount := 1 }
    else {}
  doms := fun d =>
    if d = kdomKernel ∨ d = kdomDefaultUser then { immortal := true }
    else if d = 2 ∧ g.translating then { refcount := 1, space := true }
    else {}
  domFresh := if g.translating then 1 else 0
  births := 2

inductive Reachable (g : Geometry) : Pools → Prop where
  | boot : Reachable g (boot g)
  | step {s s' : Pools} (hs : Reachable g s) (h : Pools.Step g s s') : Reachable g s'

end Life
end KickOS
