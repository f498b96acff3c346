import KickOS.Lib.Count
import KickOS.Lib.HeadList

/-! The records of the tasks, from a seat to the next, as `kernel/task` keeps them.

A thread leaves its task under the kernel lock, sweeps its capabilities with the lock open and comes back under it to end its
sweep; other threads act in between. A seat of a record is one incarnation of a task. -/

namespace KickOS
namespace Death
open Function (update)

/-- The marks and counts of a record. `seats` counts its incarnations. -/
structure Task where
  refcount : Nat := 0
  /-- `KILL_TAG_NONE` is 0. -/
  creatorTag : Nat := 0
  gen : BitVec 16 := 0
  sweeping : Nat := 0
  ended : Bool := false
  dead : Bool := false
  seats : Nat := 0

/-- Where a thread of the pool stands: its record, that record's incarnation and, while it sweeps, `left_gen`. -/
inductive Stage
  | out
  | member (t seat : Nat)
  | sweeps (t seat : Nat) (gen : BitVec 16)
  deriving DecidableEq

/-- A death reported: the record, its incarnation then, and the one of the thread that reported it. -/
structure Report where
  t : Nat
  seat : Nat
  reporter : Nat
  deriving DecidableEq

structure State where
  /-- The records; those from `shared` on are the declarations' own. -/
  size : Nat
  shared : Nat
  threads : Nat
  task : Nat → Task
  /-- The retiring IRQ bindings of each record, with the incarnation each was charged to. -/
  retiring : Nat → List (Nat × Nat)
  free : Lib.HeadList Nat
  /-- `task_fresh`. -/
  fresh : Nat
  thread : Nat → Stage
  reports : List Report
  /-- The incarnations that had a member, and those whose creator's hold was gone before their last sweep ended. -/
  joined : Nat → Nat → Bool
  orphaned : Nat → Nat → Bool

namespace State

def setTask (s : State) (t : Nat) (f : Task → Task) : State := { s with task := update s.task t (f (s.task t)) }

def mark (f : Nat → Nat → Bool) (t seat : Nat) : Nat → Nat → Bool := fun t' seat' => (t' == t && seat' == seat) || f t' seat'

/-- `slot_free`. -/
def slotFree (s : State) (t : Nat) : Bool :=
  (s.task t).refcount == 0 && (s.task t).creatorTag == 0 && (s.task t).sweeping == 0 && (s.retiring t).isEmpty

/-- `free_put`. -/
def freePut (s : State) (t : Nat) : State :=
  if s.shared ≤ t || !s.slotFree t || s.free.holds t then s else { s with free := s.free.push t }

/-- The never-seated cursor of `free_slot`. -/
def freshFrom (s : State) : Nat → Nat → Nat
  | 0, at_ => at_
  | n + 1, at_ => if at_ < s.shared && !s.slotFree at_ then s.freshFrom n (at_ + 1) else at_

/-- `free_slot`. -/
def freeSlot (s : State) : State × Option Nat :=
  match s.free.pop with
  | (free, some t) => ({ s with free := free }, some t)
  | (_, none) =>
    let fresh := s.freshFrom (s.shared - s.fresh) s.fresh
    if s.shared ≤ fresh then ({ s with fresh := fresh }, none) else ({ s with fresh := fresh + 1 }, some fresh)

/-- `task_fill`: the generation stays. -/
def taskFill (s : State) (t : Nat) : State := s.setTask t fun x => { gen := x.gen, seats := x.seats + 1 }

/-- `free_task`. -/
def freeTask (s : State) (t : Nat) : State :=
  (s.setTask t fun x => { x with creatorTag := 0, gen := x.gen + 1 }).freePut t

/-- `task_drop_hold`. -/
def taskDropHold (s : State) (t : Nat) : State :=
  let x := s.task t
  if x.creatorTag = 0 then s
  else
    let s := { s with orphaned := if x.refcount = 0 ∧ x.sweeping = 0 then s.orphaned else mark s.orphaned t x.seats }
    let s := s.setTask t fun x => { x with creatorTag := 0 }
    if x.refcount = 0 then s.freeTask t else s

/-- `task_ref` of a thread that joins. -/
def taskRef (s : State) (c t : Nat) : State :=
  { s.setTask t fun x => { x with refcount := x.refcount + 1 } with
    thread := update s.thread c (.member t (s.task t).seats)
    joined := mark s.joined t (s.task t).seats }

/-- `task_release`. -/
def taskRelease (s : State) (t : Nat) : State :=
  let s := s.setTask t fun x => { x with refcount := x.refcount - 1, sweeping := x.sweeping + 1 }
  if (s.task t).refcount = 0 ∧ (s.task t).creatorTag = 0 then s.freeTask t else s

/-- `task_sweep_done`. -/
def taskSweepDone (s : State) (t : Nat) (gen : BitVec 16) : State × Bool :=
  if (s.task t).sweeping = 0 then (s, false)
  else
    let s := (s.setTask t fun x => { x with sweeping := x.sweeping - 1 }).freePut t
    (s, (s.task t).gen == gen && (s.task t).sweeping == 0 && (s.task t).refcount == 0)

/-- `task_report_death`. -/
def taskReportDeath (s : State) (t : Nat) (gen : BitVec 16) (reporter : Nat) : State :=
  if (s.task t).gen ≠ gen ∨ (s.task t).refcount ≠ 0 then s
  else { s.setTask t fun x => { x with dead := true, ended := true } with
    reports := ⟨t, (s.task t).seats, reporter⟩ :: s.reports }

/-- `task_for` and the join of the thread it is for, an idle thread or root. -/
def taskFor (s : State) (c : Nat) : State :=
  match s.freeSlot with
  | (s, none) => s
  | (s, some t) =>
    let s := s.taskFill t
    { s with orphaned := mark s.orphaned t (s.task t).seats }.taskRef c t

/-- `task_decl_state` answers 0. -/
def declFree (s : State) (t : Nat) : Bool :=
  (s.task t).refcount == 0 && (s.task t).sweeping == 0 && ((s.task t).creatorTag == 0 || (s.task t).dead) &&
    (s.retiring t).isEmpty

/-- `task_create_declared`. -/
def taskCreateDeclared (s : State) (t tag : Nat) : State :=
  ((s.taskDropHold t).taskFill t).setTask t fun x => { x with creatorTag := tag }

/-- The first bracket of `exit_current`. -/
def leave (s : State) (c t seat : Nat) : State :=
  { s.taskRelease t with thread := update s.thread c (.sweeps t seat (s.task t).gen) }

/-- The last bracket of `exit_current`. -/
def sweepEnd (s : State) (c t seat : Nat) (gen : BitVec 16) : State :=
  let r := s.taskSweepDone t gen
  let s := if r.2 then r.1.taskReportDeath t gen seat else r.1
  { s with thread := update s.thread c .out }

end State

/-- What happens under the kernel lock. -/
inductive Act
  | taskFor (c : Nat)
  | create (t tag : Nat)
  /-- A spawn into a task. -/
  | join (c t : Nat)
  | leave (c : Nat)
  | sweepEnd (c : Nat)
  | dropHold (t : Nat)
  /-- `mark_ended`, of a task end or stop. -/
  | markEnded (t : Nat)
  /-- `retire_pay` and `retire_unpay` of a binding. -/
  | retirePay (b t : Nat)
  | retireUnpay (b t : Nat)

namespace State

/-- A member runs in it, or its creator holds it. -/
def Alive (s : State) (t : Nat) : Prop := (s.task t).refcount ≠ 0 ∨ (s.task t).creatorTag ≠ 0

def Enabled (s : State) : Act → Prop
  | .taskFor c => c < s.threads ∧ s.thread c = .out
  | .create t tag => s.shared ≤ t ∧ t < s.size ∧ tag ≠ 0 ∧ s.declFree t = true
  | .join c t => c < s.threads ∧ s.thread c = .out ∧ s.Alive t ∧ (s.task t).ended = false
  | .leave c => c < s.threads ∧ ∃ t seat, s.thread c = .member t seat
  | .sweepEnd c => c < s.threads ∧ ∃ t seat gen, s.thread c = .sweeps t seat gen
  -- the payer is the task of the thread that closes, or the one a sweep left
  | .retirePay _ t => (s.task t).refcount ≠ 0 ∨ (s.task t).sweeping ≠ 0
  | .retireUnpay b t => ∃ seat, (b, seat) ∈ s.retiring t
  | _ => True

def exec (s : State) : Act → State
  | .taskFor c => s.taskFor c
  | .create t tag => s.taskCreateDeclared t tag
  | .join c t => s.taskRef c t
  | .leave c =>
    match s.thread c with
    | .member t seat => s.leave c t seat
    | _ => s
  | .sweepEnd c =>
    match s.thread c with
    | .sweeps t seat gen => s.sweepEnd c t seat gen
    | _ => s
  | .dropHold t => s.taskDropHold t
  | .markEnded t => s.setTask t fun x => { x with ended := true }
  | .retirePay b t => { s with retiring := update s.retiring t ((b, (s.task t).seats) :: s.retiring t) }
  | .retireUnpay b t => { s with retiring := update s.retiring t ((s.retiring t).eraseP fun x => x.1 == b) }.freePut t

end State

/-- `task_init`. -/
def boot (size shared threads : Nat) : State where
  size := size
  shared := shared
  threads := threads
  task _ := {}
  retiring _ := []
  free := {}
  fresh := 0
  thread _ := .out
  reports := []
  joined _ _ := false
  orphaned _ _ := false

inductive Reachable : State → Prop
  | boot (size shared threads : Nat) : Reachable (boot size shared threads)
  | step {s : State} (h : Reachable s) (a : Act) (ha : s.Enabled a) : Reachable (s.exec a)

end Death
end KickOS
