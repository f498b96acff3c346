import KickOS.Kernel.Task

/-! Threads: spawn with its grants (`kernel/syscall/syscall_thread.cc`), the exit in its locked sections
(`exit_current` in `kernel/sched/sched.cc`, `cap_teardown` in `kernel/syscall/cap.cc`), and the expiry of a timer. -/

namespace KickOS

/-- One entry of a spawn's grant list. -/
structure Grant where
  cap : Nat
  mask : Rights
  dest : Nat
  deriving Repr

/-- A grant past its checks: what goes into the child's table. -/
structure Seat where
  type : CapType
  obj : Nat
  rights : Rights
  badge : Nat
  dest : Nat
  deriving Repr

/-- `KCAP_TEARDOWN_CHUNK`. -/
def kcapTeardownChunk : Nat := 4

namespace Kernel

variable (s : Kernel)

/-! ### Spawn -/

/-- `spawn_authority_admit`: no bit beyond the defined ones, and none the spawner lacks. -/
def spawnAuthorityAdmit (c : Tid) (authority : Nat) : Except Errno Unit :=
  if authority = 0 then .ok ()
  else if authority &&& capAuthAll ≠ authority then .error .einval
  else if s.capCheckAuthority c authority = false then .error .eperm
  else .ok ()

/-- The check of the grant at place `ci` of the list: the source must be live and transferable, and only narrows, but
for the handout right of an endpoint, which seats a receive right the source may lack. A destination of 0 asks for the
place `KOS_SPAWN_DELEGATED_CAP0 + ci`. -/
def grantCheck (c : Tid) (ci : Nat) (g : Grant) : Except Errno Seat :=
  match capLookup (s.thr c).caps g.cap with
  | none => .error .ebadf
  | some idx =>
    let e := (s.thr c).caps.slots idx
    if s.capObjLive e = false then .error .ebadf
    else if e.rights.transfer = false then .error .eacces
    else
      let grantable := if e.type = .endpoint ∧ e.rights.handout then { e.rights with wait := true } else e.rights
      if grantable.has g.mask = false then .error .eacces
      else
        let dest := if g.dest = 0 then capFirstDynamic + ci else g.dest
        .ok { type := e.type, obj := e.obj, rights := g.mask, badge := e.badge, dest }

def grantChecks (c : Tid) (ci : Nat) : List Grant → Except Errno (List Seat)
  | [] => .ok []
  | g :: rest =>
    match s.grantCheck c ci g with
    | .error e => .error e
    | .ok seat =>
      match grantChecks c (ci + 1) rest with
      | .error e => .error e
      | .ok seats => .ok (seat :: seats)

/-- The references of a grant list, one after the other; a refusal undoes those taken. -/
def grantRefs (done : List Seat) : List Seat → Kernel → Except Kernel Kernel
  | [], s => .ok s
  | g :: rest, s =>
    match s.objRefInc g.type g.obj g.rights with
    | some s => grantRefs (done ++ [g]) rest s
    | none => .error (done.foldl (fun s g => s.objRefUndo g.type g.obj g.rights) s)

/-- A slot `ThreadPool::claim` can hand out: never used, or its thread retired. -/
def claimable (t : Tid) : Bool :=
  t < s.count && ((s.thr t).state = .exited || ((s.thr t).state = .inactive && (s.thr t).task = none))

/-- `thread_create`: the slot's record is built from nothing; a reclaimed slot steps its generation. -/
def threadCreate (t : Tid) (prio : Nat) (k : TaskId) (caps : CapTable) : Kernel :=
  let gen := if (s.thr t).state = .exited then ((s.thr t).gen + 1) % 2 ^ 32 else (s.thr t).gen
  let s := s.setThr t { prio, basePrio := prio, caps, gen, lockId := lockIdPack gen t, task := some k }
  s.onTask k fun x => { x with refcount := x.refcount + 1 }

/-- The grants of a spawn go into the child's table. -/
def seatGrants (child : Tid) : List Seat → Kernel → Kernel
  | [], s => s
  | g :: rest, s => seatGrants child rest (s.installAt child g.dest g.obj g.type g.rights g.badge)

/-- `KICKOS_MAX_SPAWN_GRANTS`. -/
def maxSpawnGrants : Nat := 6

/-- The part of `spawn_locked` that cannot fail: the child's record, its standard output seat, its authority word and
its grants. -/
def spawnSeat (child : Tid) (k : TaskId) (prio authority : Nat) (caps : CapTable) (seats : List Seat) : Kernel :=
  let s := s.threadCreate child prio k caps
  let s := s.capInstallDefaults child
  let s := s.capSeatAuthority child authority
  seatGrants child seats s

/-- `spawn_locked`, past the stack, the windows and the task's ceilings. `child` is the slot claimed, `admitted` and
`grantsAdmitted` the budgets' answers and `chunks` the slab's free chunks, with directory rows of the greatest length;
a driver's entry thread is left for its task to start. -/
def spawn (c child : Tid) (k : TaskId) (prio width authority : Nat) (grants : List Grant) (chunks : List Nat)
    (driver admitted grantsAdmitted : Bool) : Kernel × Answer :=
  match s.spawnAuthorityAdmit c authority with
  | .error e => (s, .error e)
  | .ok () =>
    if maxSpawnGrants < grants.length then (s, .error .einval)
    else
      match s.grantChecks c 0 grants with
      | .error e => (s, .error e)
      | .ok seats =>
        if ¬ (seats.map Seat.dest).Nodup then (s, .error .einval)
        else if (s.task k).ended then (s, .error .ebusy)
        else if width < capFirstDynamic + grants.length then (s, .error .einval)
        else if admitted = false then (s, .error .eagain)
        else if kcapWidthMax / kcapChunkSlots < kcapChunksFor width then (s, .error .einval)
        else if s.claimable child = false then (s, .error .enomem)
        else
          match capSlabAttach chunks width with
          | none => (s, .error .enomem)
          | some (caps, _) =>
            if seats.any fun g => caps.width ≤ g.dest then (s, .error .einval)
            else if grantsAdmitted = false then (s, .error .eagain)
            else
              match grantRefs [] seats s with
              | .error s => (s, .error .eoverflow)
              | .ok s =>
                let s := s.spawnSeat child k prio authority caps seats
                (if driver then s else s.makeReady child, .ok (s.threadHandle child))

/-- `sched::add` of a thread built for later. -/
def threadAdd (t : Tid) : Kernel :=
  if (s.thr t).state = .inactive ∧ (s.thr t).task ≠ none then s.makeReady t else s

/-! ### Exit -/

/-- The first locked section of `exit_current`; `endsTask` is whether this death ends the group. -/
def exitBegin (c : Tid) (endsTask : Bool) : Kernel :=
  let s := s.onThr c fun x => { x with dying := true }
  let s := s.notifyUnbindSelf c
  let s := if endsTask then s.taskEnd (s.thr c).task else s
  let s := mutexOwnerExit c (s.thr c).heldList.length s
  let left := (s.thr c).task
  let gen := (left.map fun k => (s.task k).gen).getD 0
  let (s, emptied) := s.taskRelease left
  let s := if emptied then s.onThr c fun x => { x with task := none } else s
  let s := orphanFrom c s.taskCount 0 s
  s.onThr c fun x => { x with tail := .exit left gen none }

/-- The slots from `i` on whose entries `close` takes, closed by a teardown. -/
def teardownFrom (c : Tid) (close : CapEntry → Bool) : Nat → Nat → Kernel → Kernel
  | 0, _, s => s
  | fuel + 1, i, s =>
    teardownFrom c close fuel (i + 1)
      (if i < (s.thr c).caps.width ∧ ((s.thr c).caps.slots i).type ≠ .empty ∧ close ((s.thr c).caps.slots i) then
        s.closeEntry c i true
      else s)

/-- A locked section of `cap_teardown`: first every interrupt binding, then the entries chunk by chunk. -/
def exitSweep (c : Tid) (left : Option TaskId) (gen : Nat) (swept : Option Nat) : Kernel :=
  match swept with
  | none =>
    let s := if (s.thr c).caps.irqLive = 0 then s
      else teardownFrom c (fun e => e.type = .irq) (s.thr c).caps.width 0 s
    s.onThr c fun x => { x with tail := .exit left gen (some 0) }
  | some i =>
    let s := teardownFrom c (fun _ => true) kcapTeardownChunk i s
    s.onThr c fun x => { x with tail := .exit left gen (some (i + kcapTeardownChunk)) }

/-- The waits an exit ends: the joins of the thread and, with the last of its task swept, the waits for the task. -/
def wakeWaitersFrom (c : Tid) (left : Option TaskId) (dead : Bool) : Nat → Tid → Kernel → Kernel
  | 0, _, s => s
  | fuel + 1, i, s =>
    wakeWaitersFrom c left dead fuel (i + 1)
      (if (s.thr i).edge = .join c ∨ (dead = true ∧ left.any fun k => (s.thr i).edge = .taskEmpty k) then
        s.threadAbortPark i (.ok 0)
      else s)

/-- The slot is published as exited and leaves its ready list. -/
def retire (c : Tid) : Kernel := (s.onThr c fun x => { x with state := .exited }).rqRemove c

/-- The last locked section of `exit_current`. -/
def exitFinish (c : Tid) (left : Option TaskId) (gen : Nat) : Kernel :=
  let s := s.assert ((s.thr c).caps.replyLive = 0)
  let s := s.assert ((s.thr c).caps.irqLive = 0)
  let s := s.assert ((s.thr c).replyWaiters = [])
  let s := s.assert ((s.thr c).served = [])
  let s := s.onThr c fun x => { x with caps := {}, task := none, tail := .none }
  let s := s.retire c
  let (s, dead) := s.taskSweepDone left gen
  let s := wakeWaitersFrom c left dead s.count 0 s
  let s := if dead then s.taskReportDeath left gen else s
  s.reschedule

/-- One locked section of `exit_current`, in the order its tail says. -/
def exitCurrent (c : Tid) (endsTask : Bool) : Kernel :=
  match (s.thr c).tail with
  | .exit left gen none => s.exitSweep c left gen none
  | .exit left gen (some i) =>
    if i < (s.thr c).caps.width then s.exitSweep c left gen (some i) else s.exitFinish c left gen
  | _ => s.exitBegin c endsTask

/-! ### Other parks -/

/-- One expiry of `ktime_on_timer`. -/
def timerExpire (t : Tid) : Kernel := (s.sleepqRemove t).threadAbortPark t (.error .etimedout)

end Kernel
end KickOS
