import Mathlib.Tactic

/-! A notification and the threads that bind it, wait on it and receive with a mask of it open
(`kernel/notify/notify.cc`, and of `kernel/syscall/syscall_ipc.cc` the receive that is fused with a wait). An operation
is one section under the lock. A wait is two of them, with the park between, and a third thread may raise, or end the
park, in front of the second. -/

namespace KickOS.Notify

abbrev Tid := Nat

/-- Where a thread stands: in no wait, parked in `notify_wait` or in a receive, or taken off such a park and not
resumed. Of a wait that was taken off it is kept whether its result is 0. -/
inductive Phase where
  | away
  | waiting (mask : BitVec 32)
  | resumed (mask : BitVec 32) (delivered : Bool)
  | receiving (opened : BitVec 32)
  | received (opened : BitVec 32)
  deriving DecidableEq

/-- `Notification`, with the threads. -/
structure Notification where
  pending : BitVec 32 := 0
  bound : Option Tid := none
  accept : BitVec 32 := 0
  phase : Tid → Phase := fun _ => .away

/-- The thread is taken off its park: by a raise, or by a timeout, a cancel or, in a receive, a message. -/
def Phase.off (delivered : Bool) : Phase → Phase
  | .waiting mask => .resumed mask delivered
  | .receiving opened => .received opened
  | p => p

def Phase.parked : Phase → Bool
  | .waiting _ => true
  | .receiving _ => true
  | _ => false

namespace Notification

variable (n : Notification)

def setPhase (c : Tid) (p : Phase) : Notification := { n with phase := Function.update n.phase c p }

def setAccept (mask : BitVec 32) : Notification := { n with accept := mask }

/-- `take_pending`. -/
def takePending (mask : BitVec 32) : Notification := { n with pending := n.pending &&& ~~~(n.pending &&& mask) }

/-- The bit `b` is latched. -/
def latch (b : Fin 32) : Notification := { n with pending := n.pending ||| BitVec.twoPow 32 b }

/-- `raise_take`, with the wake of the thread it detaches. -/
def raise (b : Fin 32) : Notification :=
  match n.bound with
  | none => n.latch b
  | some t => if n.accept.getLsbD b = false then n.latch b else (n.latch b).setPhase t ((n.phase t).off true)

/-- `notify_wait_enter`: the mask it opened. -/
def waitEnter (c : Tid) (mask : BitVec 32) : BitVec 32 × Notification :=
  if n.bound = some c ∧ mask ≠ 0 then (mask, n.setAccept mask) else (0, n)

/-- `notify_wait_leave`. -/
def waitLeave (c : Tid) (opened : BitVec 32) : Notification :=
  if n.bound = some c then (n.setAccept 0).takePending opened else n

/-- `notify_bind`, of a thread that is bound to no other object. -/
def bind (c : Tid) : Notification := if n.bound = none then { n with bound := some c, accept := 0 } else n

/-- `unbind_locked`, where the thread is bound. -/
def unbind (c : Tid) : Notification := if n.bound = some c then { n with bound := none, accept := 0 } else n

/-- `notify_wait`, up to the park. -/
def wait (c : Tid) (mask : BitVec 32) : Notification :=
  if mask = 0 ∨ n.bound ≠ some c then n
  else if n.pending &&& mask ≠ 0 then n.takePending mask
  else (n.setAccept mask).setPhase c (.waiting mask)

/-- `notify_wait`, past the resume. -/
def waitEnd (c : Tid) (mask : BitVec 32) (delivered : Bool) : Notification :=
  let m := (n.setAccept 0).setPhase c .away
  if delivered = true then m.takePending mask else m

/-- `endpoint_reply_recv` from the open of the mask on: `watch` is the bit of this object that `task_note_receive`
raises, and `parks` says that `endpoint_recv_locked` found no message and parked. -/
def receive (c : Tid) (mask : BitVec 32) (watch : Option (Fin 32)) (parks : Bool) : Notification :=
  let m := n.waitEnter c mask
  if m.2.pending &&& m.1 ≠ 0 then m.2.waitLeave c m.1
  else
    let r := watch.elim m.2 m.2.raise
    if parks = true then r.setPhase c (.receiving m.1) else r.waitLeave c m.1

end Notification

inductive Op where
  | raise (b : Fin 32)
  | bind (c : Tid)
  | unbind (c : Tid)
  | wait (c : Tid) (mask : BitVec 32)
  | receive (c : Tid) (mask : BitVec 32) (watch : Option (Fin 32)) (parks : Bool)
  | resume (c : Tid)
  | ends (c : Tid)
  | exit (c : Tid)

/-- A thread calls where it is in no wait, goes on where it was taken off its park, and exits where it is not parked. -/
def Notification.step (n : Notification) : Op → Notification
  | .raise b => n.raise b
  | .bind c => if n.phase c = .away then n.bind c else n
  | .unbind c => if n.phase c = .away then n.unbind c else n
  | .wait c mask => if n.phase c = .away then n.wait c mask else n
  | .receive c mask watch parks => if n.phase c = .away then n.receive c mask watch parks else n
  | .resume c =>
    match n.phase c with
    | .resumed mask delivered => n.waitEnd c mask delivered
    | .received opened => (n.waitLeave c opened).setPhase c .away
    | _ => n
  | .ends c => n.setPhase c ((n.phase c).off false)
  | .exit c => if (n.phase c).parked = true then n else (n.unbind c).setPhase c .away

inductive Reachable : Notification → Prop
  | create : Reachable {}
  | step {n : Notification} (h : Reachable n) (o : Op) : Reachable (n.step o)

end KickOS.Notify
