import KickOS.Life.Threads

/-! The task records of `task.cc` and the memory domains of `domain.cc`, with the thread pool.

A domain is held by its task's members as a group, by the hold of the task's creator, by every domain that borrows from
it and by every memory window over its reservations. What the address space code answers is drawn by the caller of the
model: whether the pages are in the budget, whether a space could be built, whether a handoff or a mapping went in. -/

namespace KickOS
namespace Life

/-- The sizes of the pools, with what `pool_storage.h` and `mpuset.h` assert of them. -/
structure Geometry where
  threads : Nat
  tasks : Nat
  domains : Nat
  /-- `KICKOS_KERNEL_CORES`: each idle thread has a task of its own. -/
  cores : Nat
  /-- `KICKOS_MAX_THREAD_WINDOWS`. -/
  windows : Nat
  /-- `KICKOS_HAVE_ASPACE`. -/
  translating : Bool
  threads_pos : 1 ≤ threads
  threads_le : threads ≤ 254
  tasks_le : tasks ≤ 254
  cores_lt : cores < tasks
  domains_gt : 2 < domains
  refs_fit : 2 * tasks + domains ≤ 65535
  windows_le : windows ≤ 4

structure TaskRec where
  domain : Option Nat := none
  /-- The live threads, a `uint8_t`. -/
  refcount : Nat := 0
  creatorTag : Nat := killTagNone
  gen : BitVec 16 := 0
  sweeping : Nat := 0
  /-- The birth of the thread that created the incarnation. -/
  createdBy : Nat := 0
  /-- How often the record was freed. -/
  frees : Nat := 0

/-- `task_fill`: the generation stays. -/
def TaskRec.fill (x : TaskRec) (d creator : Nat) : TaskRec :=
  { gen := x.gen, frees := x.frees, domain := some d, createdBy := creator }

structure Domain where
  /-- A `uint16_t`. -/
  refcount : Nat := 0
  immortal : Bool := false
  borrowedFrom : Option Nat := none
  /-- It has an address space. -/
  space : Bool := false

/-- A `VR_WINDOW` range: the domain whose range list has it, the slot that holds it, the domain whose memory it maps. -/
structure Window where
  place : Nat
  holder : Nat
  donor : Option Nat
  deriving DecidableEq

structure Pools where
  pool : ThreadPool
  tasks : Nat → TaskRec := fun _ => {}
  doms : Nat → Domain := fun _ => {}
  domFree : List Nat := []
  domFresh : Nat := 0
  windows : List Window := []
  /-- The stamp of the next thread. -/
  births : Nat := 1

/-- What the code around answers to `domain_for`. -/
structure DomainAsk where
  privileged : Bool := false
  /-- A memory block is named. -/
  mem : Bool := false
  nocache : Bool := true
  pages : Bool := true
  space : Bool := true
  seeded : Bool := true
  handoff : Bool := true
  /-- The block reached the donor by a handoff itself. -/
  passedOn : Bool := false

/-- `KDOM_KERNEL_INDEX` and `KDOM_DEFAULT_USER_INDEX`. -/
def kdomKernel : Nat := 0
def kdomDefaultUser : Nat := 1

namespace Pools

def setTask (s : Pools) (t : Nat) (f : TaskRec → TaskRec) : Pools :=
  { s with tasks := Function.update s.tasks t (f (s.tasks t)) }

def setDom (s : Pools) (d : Nat) (f : Domain → Domain) : Pools :=
  { s with doms := Function.update s.doms d (f (s.doms d)) }

def domainRef (s : Pools) : Option Nat → Pools
  | none => s
  | some d => if (s.doms d).immortal then s else s.setDom d fun x => { x with refcount := (x.refcount + 1) % 65536 }

/-- `free_put` of `domain.cc`. -/
def domFreePut (s : Pools) (d : Nat) : Pools :=
  if (s.doms d).immortal ∨ (s.doms d).refcount ≠ 0 ∨ d ∈ s.domFree then s else { s with domFree := d :: s.domFree }

/-- `drop_space`: the ranges go with the space, and the donor is the caller's to release. -/
def dropSpace (s : Pools) (d : Nat) : Option Nat × Pools :=
  ((s.doms d).borrowedFrom,
    { s.setDom d fun x => { x with borrowedFrom := none, space := false } with
      windows := s.windows.filter fun w => w.place ≠ d })

/-- The loop of `domain_release`, along the donors. -/
def releaseLoop (g : Geometry) : Nat → Pools → Option Nat → Pools
  | 0, s, _ => s
  | _ + 1, s, none => s
  | fuel + 1, s, some d =>
    if (s.doms d).immortal then s
    else
      let s := s.setDom d fun x => { x with refcount := x.refcount - 1 }
      if (s.doms d).refcount ≠ 0 then s
      else
        let s := s.domFreePut d
        if g.translating then releaseLoop g fuel (s.dropSpace d).2 (s.dropSpace d).1 else s

def domainRelease (g : Geometry) (s : Pools) (d : Option Nat) : Pools := releaseLoop g (g.domains + 1) s d

/-- `free_slot` of `domain.cc`. -/
def domFreeSlot (g : Geometry) (s : Pools) : Option Nat × Pools :=
  match s.domFree with
  | d :: rest => (some d, { s with domFree := rest })
  | [] =>
    let fresh := kdomDefaultUser + 1 + s.domFresh
    if g.domains ≤ fresh then (none, s) else (some fresh, { s with domFresh := s.domFresh + 1 })

def claimSlot (g : Geometry) (s : Pools) (a : DomainAsk) : Option Nat × Pools :=
  match s.domFreeSlot g with
  | (none, s) => (none, s)
  | (some d, s) =>
    if g.translating then
      let stale := (s.dropSpace d).1
      let s := ((s.dropSpace d).2.setDom d fun _ => {}).domainRelease g stale
      if a.pages = false ∨ a.space = false then (none, s.domFreePut d)
      else
        let s := s.setDom d fun x => { x with space := true }
        if a.seeded then (some d, s) else (none, (s.dropSpace d).2.domFreePut d)
    else (some d, s.setDom d fun _ => {})

/-- The domain that reserved the memory a donor hands on. -/
def owner (s : Pools) (donor : Nat) (passedOn : Bool) : Nat :=
  if passedOn then (s.doms donor).borrowedFrom.getD donor else donor

/-- The handoff of `domain_for` into the new domain `d`; a donor without a space has no ranges. -/
def handoff (g : Geometry) (s : Pools) (a : DomainAsk) (donor : Option Nat) (d : Nat) : Option Nat × Pools :=
  match donor with
  | none => (none, s.domainRelease g (some d))
  | some e =>
    if a.handoff ∧ (s.doms e).space then
      let o := s.owner e a.passedOn
      (some d, (s.setDom d fun x => { x with borrowedFrom := some o }).domainRef (some o))
    else (none, s.domainRelease g (some d))

def domainFor (g : Geometry) (s : Pools) (a : DomainAsk) (donor : Option Nat) : Option Nat × Pools :=
  if a.privileged then (some kdomKernel, s)
  else if a.mem = false then
    if g.translating then s.claimSlot g a else (some kdomDefaultUser, s)
  else if a.nocache = false then (none, s)
  else
    match s.claimSlot g a with
    | (none, s) => (none, s)
    | (some d, s) => if g.translating then s.handoff g a donor d else (some d, s)

def addCreated (s : Pools) (p t : Nat) : Pools :=
  { s with pool := { s.pool with created := Function.update s.pool.created p (t :: s.pool.created p) } }

def cutCreated (s : Pools) (p t : Nat) : Pools :=
  { s with pool := { s.pool with created := Function.update s.pool.created p ((s.pool.created p).erase t) } }

def taskHold (s : Pools) (t d tag : Nat) : Pools :=
  let s := (s.domainRef (some d)).setTask t fun x => { x with creatorTag := tag % 256 }
  if s.pool.foreign tag then s else s.addCreated (tag - 1) t

/-- `domain_retire_handoff`. -/
def retireHandoff (s : Pools) (d : Nat) : Option Nat × Pools :=
  ((s.doms d).borrowedFrom, s.setDom d fun x => { x with borrowedFrom := none })

/-- `domain_shed`. -/
def domainShed (s : Pools) (d : Nat) : Pools :=
  if (s.doms d).immortal ∨ (s.doms d).space = false then s
  else { s.setDom d fun x => { x with space := false } with windows := s.windows.filter fun w => w.place ≠ d }

/-- What `free_task` gives back of the domain of the task. -/
def freeDomain (g : Geometry) (s : Pools) (d : Nat) : Pools :=
  if g.translating then
    let donor := (s.retireHandoff d).1
    (((s.retireHandoff d).2.domainShed d).domainRelease g (some d)).domainRelease g donor
  else s.domainRelease g (some d)

def freeTask (g : Geometry) (s : Pools) (t : Nat) : Pools :=
  let s := match (s.tasks t).domain with
    | none => s
    | some d => s.freeDomain g d
  s.setTask t fun x =>
    { x with domain := none, creatorTag := killTagNone, gen := x.gen + 1, frees := x.frees + 1 }

/-- `sched::add` of a member its create left out of the scheduler. -/
def addMember (t : Nat) (x : Tcb) : Tcb :=
  if x.task = some t ∧ x.state = .inactive then { x with state := .ready } else x

/-- The members still out of the scheduler are added, to die there. -/
def addMembers (s : Pools) (t : Nat) : Pools :=
  { s with pool := { s.pool with slots := fun i => addMember t (s.pool.slots i) } }

def unhold (s : Pools) (t : Nat) : Pools :=
  let tag := (s.tasks t).creatorTag
  let s := if tag ≤ s.pool.count then s.cutCreated (tag - 1) t else s
  s.setTask t fun x => { x with creatorTag := killTagNone }

def taskDropHold (g : Geometry) (s : Pools) (t : Nat) : Pools :=
  if (s.tasks t).creatorTag = killTagNone then s
  else
    let s := (s.addMembers t).unhold t
    if (s.tasks t).refcount = 0 then s.freeTask g t else s.domainRelease g (s.tasks t).domain

/-- The loop of `task_orphan_created_by` over the list of slot `p`. -/
def orphanLoop (g : Geometry) : Nat → Pools → Nat → Pools
  | 0, s, _ => s
  | fuel + 1, s, p =>
    match s.pool.created p with
    | [] => s
    | t :: _ => orphanLoop g fuel (s.taskDropHold g t) p

def taskOrphanCreatedBy (g : Geometry) (s : Pools) (tag : Nat) : Pools :=
  if s.pool.foreign tag then s else s.orphanLoop g (g.tasks + 1) (tag - 1)

def taskRef (s : Pools) (t : Nat) : Pools :=
  let s := if (s.tasks t).refcount = 0 then s.domainRef (s.tasks t).domain else s
  s.setTask t fun x => { x with refcount := (x.refcount + 1) % 256 }

/-- `task_release`, with whether the task was emptied. -/
def taskRelease (g : Geometry) (s : Pools) (t : Nat) : Bool × Pools :=
  if (s.tasks t).refcount = 0 then (false, s)
  else
    let s := s.setTask t fun x => { x with refcount := x.refcount - 1, sweeping := (x.sweeping + 1) % 256 }
    if (s.tasks t).refcount ≠ 0 then (false, s)
    else if (s.tasks t).creatorTag ≠ killTagNone then (true, s.domainRelease g (s.tasks t).domain)
    else (true, s.freeTask g t)

def taskSweepDone (s : Pools) (t : Nat) : Pools :=
  if (s.tasks t).sweeping = 0 then s else s.setTask t fun x => { x with sweeping := x.sweeping - 1 }

/-- `task_create_declared` for the record `t`, made by the occupant of slot `c`. -/
def taskCreateDeclared (g : Geometry) (s : Pools) (t c : Nat) (a : DomainAsk) (donor : Option Nat) : Pools :=
  match (s.taskDropHold g t).domainFor g { a with privileged := false } donor with
  | (none, s) => s
  | (some d, s) =>
    (s.setTask t fun x => x.fill d (s.pool.slots c).stamp).taskHold t d (killTagForIndex c)

/-- `task_resolve`, of an index and the generation a handle carries. -/
def taskResolve (g : Geometry) (s : Pools) (index : Nat) (gen : BitVec 16) : Option Nat :=
  if index < g.tasks ∧ (s.tasks index).gen = gen ∧ (s.tasks index).creatorTag ≠ killTagNone then some index else none

def taskCreatedBy (s : Pools) (t tag : Nat) : Bool := tag != killTagNone && (s.tasks t).creatorTag == tag % 256

/-- The domain a thread's task runs in, `thread_domain`. -/
def threadDomain (s : Pools) (c : Nat) : Option Nat := (s.pool.slots c).task.bind fun t => (s.tasks t).domain

/-- One turn of `aspace_window_unmap_holder`. -/
def unmapWindow (g : Geometry) (s : Pools) (w : Window) : Pools :=
  ({ s with windows := s.windows.erase w } : Pools).domainRelease g w.donor

def unmapHolder (g : Geometry) (s : Pools) (d : Option Nat) (holder : Nat) : Pools :=
  match d with
  | none => s
  | some d =>
    if (s.doms d).space then
      (s.windows.filter fun w => w.place = d ∧ w.holder = holder).foldl (unmapWindow g) s
    else s

/-- The mapping of one window by `aspace_window_map`. -/
def mapWindow (s : Pools) (w : Window) : Pools := ({ s with windows := w :: s.windows } : Pools).domainRef w.donor

end Pools
end Life
end KickOS
