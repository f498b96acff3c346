import KickOS.Kernel.State

/-! The scheduler and the timer list (`kernel/sched/sched.cc`, `kernel/sched/policy_fifo_rr.cc`,
`kernel/time/time.cc`), one core.

A running thread stays on its ready list; a park takes it off. The priority bitmap is the set of the levels whose
list is not empty, so it is not kept. Round-robin slices rotate a list and are driven by the events of `Step`. -/

namespace KickOS
namespace Kernel

variable (s : Kernel)

/-- `KOS_PRIO_MAX + 1`: one bitmap word. -/
def prioLevels : Nat := 32

/-! ### The ready lists -/

/-- `rq_push_back`. -/
def rqPushBack (t : Tid) : Kernel :=
  let p := (s.thr t).prio
  { s with ready := Function.update s.ready p (s.ready p ++ [t]) }

/-- `rq_remove`. -/
def rqRemove (t : Tid) : Kernel :=
  let p := (s.thr t).prio
  { s with ready := Function.update s.ready p ((s.ready p).erase t) }

/-- `rq_rotate`. -/
def rqRotate (t : Tid) : Kernel :=
  let p := (s.thr t).prio
  if (s.ready p).length ≤ 1 then s
  else { s with ready := Function.update s.ready p ((s.ready p).erase t ++ [t]) }

/-- `top_prio`: the highest level whose list is not empty. -/
def topPrio : Option Nat := (List.range prioLevels).reverse.find? fun p => !(s.ready p).isEmpty

/-- `policy_pick_next`: the head of the top level, or idle. -/
def policyPickNext : Option Tid :=
  match s.topPrio with
  | none => none
  | some p => (s.ready p).head?

/-! ### Switches -/

/-- `thread_slay_claim_pending`. -/
def slayClaimPending (t : Tid) : Bool := (s.thr t).cancelKind = .slay && !(s.thr t).dying

/-- The half of `switch_book` that takes the core from the outgoing thread. -/
def leaveRunning : Kernel :=
  match s.current with
  | none => s
  | some prev => if (s.thr prev).state = .running then s.onThr prev fun x => { x with state := .ready } else s

/-- `switch_book`: a slain thread is claimed on its way in, and a caller parked on its saved frame takes its
result from the switch. -/
def switchBook (next : Option Tid) : Kernel :=
  let s := s.leaveRunning
  let s := { s with current := next }
  match next with
  | none => s
  | some t =>
    let s := s.onThr t fun x => { x with state := .running }
    let s := if s.slayClaimPending t then s.onThr t fun x => { x with dying := true } else s
    s.onThr t fun x => { x with callFrameParked := false }

/-- `pick_and_seat`. -/
def pickAndSeat : Kernel :=
  let next := s.policyPickNext
  if next = s.current then s else s.switchBook next

/-- `sched::reschedule`. -/
def reschedule : Kernel := s.pickAndSeat

/-- `sched::yield`. -/
def yield (c : Tid) : Kernel := (s.rqRotate c).reschedule

/-! ### The timer list -/

/-- Insert behind every deadline that is not later. -/
def sleepqInsertAt (t : Tid) (deadline : Nat) : List Tid → List Tid
  | [] => [t]
  | u :: rest => if (s.thr u).deadline ≤ deadline then u :: sleepqInsertAt t deadline rest else t :: u :: rest

/-- `ktime_deadline_arm_at`; no deadline where the limit is `KOS_TIMEOUT_NONE`. -/
def deadlineArm (t : Tid) (deadline : Option Nat) : Kernel :=
  match deadline with
  | none => s
  | some d =>
    let q := s.sleepqInsertAt t d s.sleepq
    { s.onThr t fun x => { x with onTimer := true, deadline := d } with sleepq := q }

/-- `sleepq_remove`. -/
def sleepqRemove (t : Tid) : Kernel :=
  if t ∈ s.sleepq then { s.onThr t fun x => { x with onTimer := false } with sleepq := s.sleepq.erase t } else s

/-- `ktime_deadline_cancel`. -/
def deadlineCancel (t : Tid) : Kernel := if (s.thr t).onTimer then s.sleepqRemove t else s

/-! ### Wakes -/

/-- The readying half of `wake_no_resched`. -/
def makeReady (t : Tid) : Kernel := (s.onThr t fun x => { x with state := .ready }).rqPushBack t

/-- `sched::wake_no_resched`: refused, but for the deadline, unless the thread is parked. -/
def wakeNoResched (t : Tid) : Kernel × Bool :=
  let s := s.deadlineCancel t
  if (s.thr t).state ≠ .blocked then (s, false) else (s.makeReady t, true)

/-- `sched::resched_after_wake`: an exiting thread gives way only to a higher one. -/
def reschedAfterWake (t : Tid) : Kernel :=
  match s.current with
  | none => s.pickAndSeat
  | some c =>
    if (s.thr c).state = .exited ∨ ((s.thr c).dying = true ∧ (s.thr t).prio ≤ (s.thr c).prio) then s
    else s.pickAndSeat

/-- `sched::wake`. -/
def wake (t : Tid) : Kernel :=
  let (s, readied) := s.wakeNoResched t
  if readied then s.reschedAfterWake t else s

/-- `sched::set_prio`. -/
def setPrio (t : Tid) (p : Nat) : Kernel :=
  if (s.thr t).prio = p then s
  else if (s.thr t).state = .ready ∨ (s.thr t).state = .running then
    ((s.rqRemove t).onThr t fun x => { x with prio := p }).rqPushBack t
  else s.onThr t fun x => { x with prio := p }

/-! ### Parks -/

/-- `park_queueless`: the thread leaves its ready list for the wait its edge names. -/
def parkQueueless (c : Tid) (edge : WaitEdge) : Kernel :=
  let s := s.onThr c fun x => { x with state := .blocked }
  let s := s.rqRemove c
  s.onThr c fun x => { x with queue := none, edge := edge }

/-- `wq_block`: park on a queue and switch away. -/
def wqBlock (c : Tid) (q : Queue) (edge : WaitEdge) : Kernel :=
  let s := s.parkQueueless c edge
  let s := s.onThr c fun x => { x with queue := some q }
  (s.onQueue q fun l => l ++ [c]).reschedule

/-- `clear_wait_edge`. -/
def clearWaitEdge (t : Tid) : Kernel := s.onThr t fun x => { x with queue := none, edge := .none }

/-- `wq_peek_highest`: the first of the highest priority. -/
def peekFrom (best : Tid) : List Tid → Tid
  | [] => best
  | t :: rest => if (s.thr best).prio < (s.thr t).prio then peekFrom t rest else peekFrom best rest

def wqPeekHighest : List Tid → Option Tid
  | [] => none
  | t :: rest => some (s.peekFrom t rest)

/-- `wq_pop_highest`. -/
def wqPopHighest (q : Queue) : Kernel × Option Tid :=
  match s.wqPeekHighest (s.queueOf q) with
  | none => (s, none)
  | some best => ((s.onQueue q fun l => l.erase best).clearWaitEdge best, some best)

end Kernel
end KickOS
