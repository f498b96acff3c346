import KickOS.Kernel.Ipc

/-! The published console (`kernel/syscall/cap.cc`), cancellation (`kernel/thread/park.cc`), tasks
(`kernel/task/task.cc`) and the exit of a thread (`kernel/sched/sched.cc`).

The budgets' answers and the authority checks are arguments; domains, windows and stacks are not part of the
state. -/

namespace KickOS
namespace Kernel

variable (s : Kernel)

/-! ### Cancellation -/

/-- `thread_cancel_escalate`. -/
def cancelEscalate (t : Tid) (kind : CancelKind) : Kernel × Bool :=
  let x := s.thr t
  if x.state = .exited ∨ x.state = .inactive ∨ x.dying = true ∨ kind.level ≤ x.cancelKind.level then (s, false)
  else (s.onThr t fun x => { x with cancelKind := kind }, true)

/-- `thread_cancel_kind`: a parked target leaves its park, to meet its death point. -/
def threadCancelKind (t : Tid) (kind : CancelKind) : Kernel :=
  match s.cancelEscalate t kind with
  | (s, false) => s
  | (s, true) =>
    if s.current = some t ∨ (s.thr t).state ≠ .blocked then s else s.threadAbortPark t (.error .ecanceled)

/-- `task_cancel_group` over the slots from `i` on. -/
def cancelGroupFrom (k : TaskId) : Nat → Tid → Kernel → Kernel
  | 0, _, s => s
  | fuel + 1, i, s =>
    cancelGroupFrom k fuel (i + 1) (if (s.thr i).task = some k then s.threadCancelKind i .slay else s)

/-- `task_cancel_group`. -/
def taskCancelGroup (k : TaskId) : Kernel := cancelGroupFrom k s.count 0 s

/-! ### The standard output seat -/

/-- `stdout_on_console`: the thread's slot 0 names the published console. -/
def stdoutOnConsole (t : Tid) : Bool :=
  (s.thr t).caps.width ≠ 0 && ((s.thr t).caps.slots 0).type = .endpoint &&
    some ((s.thr t).caps.slots 0).obj = s.stdoutTarget

/-- `cap_seat_stdout`; `none` is the refusal at a ceiling, or of a thread without a table. -/
def capSeatStdout (t : Tid) (target : Nat) : Option Kernel :=
  if (s.thr t).caps.width = 0 then none
  else
    match s.objRefInc .endpoint target { signal := true } with
    | none => none
    | some s =>
      let prior := (s.thr t).caps.slots 0
      let gen := s.capObjGeneration .endpoint target
      let s := s.onCaps t fun x => x.mapSlot 0 fun e => capReplySeqSeat
        { e with obj := target, objGen := gen, type := .endpoint, rights := { signal := true }, badge := kcapBadgeNone } 0
      some (if prior.type = .empty then s else s.objRefDrop prior false)

/-- `stdout_seat_for`. -/
def stdoutSeatFor (k : Option TaskId) : Option Nat :=
  if k.any fun k => (s.task k).console then none else s.stdoutTarget

/-- `cap_install_defaults`. -/
def capInstallDefaults (child : Tid) : Kernel :=
  match s.stdoutSeatFor (s.thr child).task with
  | none => s
  | some seat => (s.capSeatStdout child seat).getD s

/-- `stdout_move` over the slots from `i` on: the seats of the tasks the budget admits, and of no task. -/
def stdoutMoveFrom (seat : Nat) (admitted : Option TaskId → Bool) : Nat → Tid → Kernel → Kernel
  | 0, _, s => s
  | fuel + 1, i, s =>
    stdoutMoveFrom seat admitted fuel (i + 1)
      (if s.stdoutOnConsole i && admitted (s.thr i).task then (s.capSeatStdout i seat).getD s else s)

/-! ### Publishing -/

/-- `cap_console_endpoint`. -/
def consoleEndpoint : Option Eid := s.stdoutTarget.bind s.endpoints.liveIndex

/-- The old console stops being one; its senders are told to try again, unless it is published anew. -/
def consoleRetire (obj : Nat) (admitted : Option TaskId → Bool) : Kernel :=
  match s.consoleEndpoint with
  | none => s
  | some old =>
    let s := s.onEp old fun x => { x with console := .none }
    if s.stdoutTarget = some obj then s
    else (stdoutMoveFrom obj admitted s.count 0 s).answerAllSenders old .eagain

/-- `cap_console_publish`; `none` is the refusal at a ceiling. -/
def capConsolePublish (publisher : Tid) (obj : Nat) (admitted : Option TaskId → Bool) : Option Kernel :=
  match s.objRefInc .endpoint obj {} with
  | none => none
  | some s =>
    match s.capSeatStdout publisher obj with
    | none => none
    | some s =>
      let s := s.consoleRetire obj admitted
      let s := match s.stdoutTarget with
        | none => s
        | some stale => s.endpointRefDrop stale false
      let s := { s with stdoutTarget := some obj }
      match s.consoleEndpoint with
      | none => some s
      | some e => some (s.onEp e fun x => { x with console := .ended })

/-- `task_console_serve`. -/
def taskConsoleServe (k : Option TaskId) : Kernel :=
  { s with task := fun j => { s.task j with console := decide (some j = k) } }

/-- The seats of the serving task's own members are emptied, slot by slot from `i` on. -/
def unseatMembersFrom (k : TaskId) : Nat → Tid → Kernel → Kernel
  | 0, _, s => s
  | fuel + 1, i, s =>
    unseatMembersFrom k fuel (i + 1)
      (if (s.thr i).task = some k && s.stdoutOnConsole i then
        let prior := (s.thr i).caps.slots 0
        let s := s.onCaps i fun x =>
          capRunFreeRelease (x.mapSlot 0 fun e => { e with type := .empty, rights := {} }) 0
        s.objRefDrop prior false
      else s)

/-- `cap_console_serve`. -/
def capConsoleServe (k : Option TaskId) : Kernel :=
  let s := s.taskConsoleServe k
  match s.consoleEndpoint, k with
  | some e, some k => unseatMembersFrom k s.count 0 (s.onEp e fun x => { x with console := .served })
  | _, _ => s

/-- `cap_console_publish_through`; `windowHeld` is the answer of `console_window_held_outside`. -/
def capConsolePublishThrough (publisher : Tid) (index : Nat) (servedBy : Option TaskId) (windowHeld : Bool)
    (admitted : Option TaskId → Bool) : Kernel × Answer :=
  let e := (s.thr publisher).caps.slots index
  match (s.capObj e).bind s.endpoints.liveIndex with
  | none => (s, .error .ebadf)
  | some ep =>
    if e.rights.handout = false then (s, .error .eacces)
    else if windowHeld then (s, .error .ebusy)
    else if e.rights.wait = false ∧ (s.ep ep).recvHolders = refMax then (s, .error .eoverflow)
    else
      match s.capConsolePublish publisher e.obj admitted with
      | none => (s, .error .eoverflow)
      | some s =>
        let s := if e.rights.wait then s
          else
            let s := s.onCaps publisher fun x => x.mapSlot index fun e => { e with rights := { e.rights with wait := true } }
            s.onEp ep fun x => { x with recvHolders := x.recvHolders + 1, vacated := false }
        (s.capConsoleServe servedBy, .ok 0)

/-- `cap_console_task_ended`. -/
def capConsoleTaskEnded : Kernel :=
  match s.consoleEndpoint with
  | none => s
  | some e => (s.onEp e fun x => { x with console := .ended }).refuseSenders e

/-! ### Tasks -/

/-- `watch_raise`. -/
def watchRaise (k : TaskId) : Kernel :=
  match (s.task k).watchNotify.bind s.notifies.liveIndex with
  | none => s
  | some n => s.notifyRaise n (2 ^ (s.task k).watchBit)

/-- `console_leave`. -/
def consoleLeave (k : TaskId) : Kernel :=
  if (s.task k).console then (s.onTask k fun x => { x with console := false }).capConsoleTaskEnded else s

/-- `mark_ended`. -/
def markEnded (k : TaskId) : Kernel :=
  if (s.task k).ended then s
  else ((s.onTask k fun x => { x with ended := true }).consoleLeave k).watchRaise k

/-- `task_end`: the ending thread is still a member. -/
def taskEnd (k : Option TaskId) : Kernel :=
  match k with
  | none => s
  | some k =>
    let s := s.markEnded k
    if 1 < (s.task k).refcount then s.taskCancelGroup k else s

/-- `free_task`. -/
def freeTask (k : TaskId) : Kernel :=
  (s.consoleLeave k).onTask k fun x => { x with
    watchNotify := none, watchEp := none, ready := false, creator := none, gen := (x.gen + 1) % 2 ^ 16 }

/-- `task_release`: a member leaves; the flag is whether it was the last. -/
def taskRelease (k : Option TaskId) : Kernel × Bool :=
  match k with
  | none => (s, false)
  | some k =>
    if (s.task k).refcount = 0 then (s, false)
    else
      let s := s.onTask k fun x => { x with refcount := x.refcount - 1, sweeping := x.sweeping + 1 }
      if (s.task k).refcount ≠ 0 then (s, false)
      else if (s.task k).creator ≠ none then (s, true)
      else (s.freeTask k, true)

/-- The members `task_drop_hold` adds so that they take the slay: threads still being built. -/
def addInactiveFrom (k : TaskId) : Nat → Tid → Kernel → Kernel
  | 0, _, s => s
  | fuel + 1, i, s =>
    addInactiveFrom k fuel (i + 1)
      (if (s.thr i).task = some k ∧ (s.thr i).state = .inactive then (s.makeReady i).threadCancelKind i .slay else s)

/-- `task_drop_hold`. -/
def taskDropHold (k : TaskId) : Kernel :=
  if (s.task k).creator = none then s
  else
    let s := addInactiveFrom k s.count 0 s
    let s := s.onTask k fun x => { x with creator := none }
    if (s.task k).refcount = 0 then s.freeTask k else s

/-- `task_orphan_created_by` over the records from `k` on. -/
def orphanFrom (t : Tid) : Nat → TaskId → Kernel → Kernel
  | 0, _, s => s
  | fuel + 1, k, s => orphanFrom t fuel (k + 1) (if (s.task k).creator = some t then s.taskDropHold k else s)

/-- `task_sweep_done`: the flag is whether the group is empty and swept. -/
def taskSweepDone (k : Option TaskId) (gen : Nat) : Kernel × Bool :=
  match k with
  | none => (s, false)
  | some k =>
    if (s.task k).sweeping = 0 then (s, false)
    else
      let s := s.onTask k fun x => { x with sweeping := x.sweeping - 1 }
      (s, (s.task k).gen = gen && (s.task k).sweeping = 0 && (s.task k).refcount = 0)

/-- `task_report_death`. -/
def taskReportDeath (k : Option TaskId) (gen : Nat) : Kernel :=
  match k with
  | none => s
  | some k =>
    if (s.task k).gen ≠ gen ∨ (s.task k).refcount ≠ 0 then s
    else (s.onTask k fun x => { x with ready := false, ended := true }).watchRaise k

end Kernel
end KickOS
