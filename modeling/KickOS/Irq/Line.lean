import KickOS.Lib.Count

/-! Interrupt lines on one kernel core (`irq.cc`, `notify.cc`): the claim of a line, its binding to a notification, the
interrupt that masks it and the waits that rearm it.

A capability is named by the object it resolves to: whether the caller's resolves is drawn by the caller of the model, as are
budgets, full tables and a cancelled wait. A chain of signallers is a list. -/

namespace KickOS
namespace Irq
open Function (update)

/-- What the dispatch table holds for a line. -/
inductive Handler where
  | default
  /-- `irq_event_isr`, on the binding in a slot. -/
  | event (i : Nat)
  /-- A handler of the kernel's own. -/
  | kernel
  deriving DecidableEq

structure Binding where
  line : Nat
  notify : Option Nat := none
  badge : Fin 32 := ⟨0, by decide⟩
  needsRearm : Bool := true
  armedOnce : Bool := false
  /-- `IRQ_LEVEL`. -/
  level : Bool
  /-- The reference count, which capabilities alone hold. -/
  refs : Nat := 1
  deriving DecidableEq

structure Notification where
  pending : BitVec 32 := 0
  accept : BitVec 32 := 0
  bound : Option Nat := none
  signallers : List Nat := []
  refs : Nat := 1
  deriving DecidableEq

/-- Where a thread is in a wait. -/
inductive Waiting where
  | idle
  /-- Parked in `notify_wait`. -/
  | parked (n : Nat) (mask : BitVec 32)
  /-- Woken from it, by a raise or by the wait's own end. -/
  | woken (n : Nat) (mask : BitVec 32) (failed : Bool)
  /-- Parked in a fused receive. -/
  | fused (opened : BitVec 32)
  | fusedWoken (opened : BitVec 32)
  deriving DecidableEq

/-- What a wait answered. -/
inductive Outcome where
  | refused
  | took (bits : BitVec 32)
  | parked
  deriving DecidableEq

structure State where
  /-- The controller: every line starts masked. -/
  masked : Nat → Bool := fun _ => true
  latched : Nat → Bool := fun _ => false
  table : Nat → Handler := fun _ => .default
  bindings : Nat → Option Binding := fun _ => none
  notifies : Nat → Option Notification := fun _ => none
  /-- How many capabilities name a notification. -/
  caps : Nat → Nat := fun _ => 0
  /-- `notify_bound` of a thread. -/
  notifyBound : Nat → Option Nat := fun _ => none
  wait : Nat → Waiting := fun _ => .idle

def refMax : Nat := 65535

def bit (k : Fin 32) : BitVec 32 := BitVec.twoPow 32 k

def hits (mask : BitVec 32) (k : Fin 32) : Bool := (mask &&& bit k) != 0

namespace State

def setBinding (s : State) (i : Nat) (b : Binding) : State := { s with bindings := update s.bindings i (some b) }

def setNote (s : State) (n : Nat) (x : Notification) : State := { s with notifies := update s.notifies n (some x) }

/-- `LineOp`. -/
def mask (s : State) (line : Nat) : State := { s with masked := update s.masked line true }

def unmask (s : State) (line : Nat) : State := { s with masked := update s.masked line false }

def clear (s : State) (line : Nat) : State := { s with latched := update s.latched line false }

def rearmLocked (s : State) (i : Nat) : State :=
  match s.bindings i with
  | none => s
  | some b =>
    if b.needsRearm = false then s
    -- a line that signals nothing stays masked
    else if b.notify = none then s
    else
      let s := if b.armedOnce = false ∨ b.level then s.clear b.line else s
      (s.setBinding i { b with needsRearm := false, armedOnce := true }).unmask b.line

/-- `irq_signallers_rearm`, over a chain. -/
def signallersRearm (s : State) (mask : BitVec 32) : List Nat → State
  | [] => s
  | i :: rest =>
    let s' :=
      match s.bindings i with
      | none => s
      | some b => if hits mask b.badge then s.rearmLocked i else s
    s'.signallersRearm mask rest

/-- `irq_signallers_owe_rearm`, over a chain. -/
def signallersOweRearm (s : State) (taken : BitVec 32) : List Nat → State
  | [] => s
  | i :: rest =>
    let s' :=
      match s.bindings i with
      | none => s
      | some b => if hits taken b.badge then s.setBinding i { b with needsRearm := true } else s
    s'.signallersOweRearm taken rest

/-- `take_pending`. -/
def takePending (s : State) (n : Nat) (mask : BitVec 32) : State × BitVec 32 :=
  match s.notifies n with
  | none => (s, 0)
  | some x =>
    let taken := x.pending &&& mask
    ((s.setNote n { x with pending := x.pending &&& ~~~taken }).signallersOweRearm taken x.signallers, taken)

/-- The wake of `raise_take`: a waiter on this object, or in a fused receive, resumes. -/
def raiseWake (s : State) (n t : Nat) : State :=
  match s.wait t with
  | .parked m mask => if m = n then { s with wait := update s.wait t (.woken m mask false) } else s
  | .fused opened => { s with wait := update s.wait t (.fusedWoken opened) }
  | _ => s

/-- `notify_raise`. -/
def notifyRaise (s : State) (n : Nat) (bits : BitVec 32) : State :=
  match s.notifies n with
  | none => s
  | some x =>
    let s := s.setNote n { x with pending := x.pending ||| bits }
    match x.bound with
    | none => s
    | some t =>
      if x.accept &&& bits = 0 then s else s.raiseWake n t

/-- `irq_event_isr`. -/
def irqEventIsr (s : State) (i : Nat) : State :=
  match s.bindings i with
  | none => s
  | some b =>
    let s := s.mask b.line
    match b.notify with
    | none => s
    | some n => s.notifyRaise n (bit b.badge)

/-- `kickos_isr_irq`, on one core. -/
def isrIrq (s : State) (line : Nat) : State :=
  match s.table line with
  | .default => s.mask line
  | .event i => s.irqEventIsr i
  | .kernel => s

/-- The last part of `notify_ref_drop`: the last reference frees the object. -/
def notifyRefDrop (s : State) (n : Nat) : State :=
  match s.notifies n with
  | none => s
  | some x =>
    if x.refs ≤ 1 then { s with notifies := update s.notifies n none } else s.setNote n { x with refs := x.refs - 1 }

/-- `irq_claim`, into the free slot `i`; a refusal changes nothing. -/
def irqClaim (s : State) (i line : Nat) (level : Bool) : State :=
  if s.table line ≠ .default ∨ s.bindings i ≠ none then s
  else
    let s := s.setBinding i { line := line, level := level }
    { s with table := update s.table line (.event i) }

/-- `irq_bind_notify`, of a binding without a notification; `fits` is the budgets' answer. -/
def irqBindNotify (s : State) (i n : Nat) (badge : Fin 32) (fits : Bool) : State :=
  match s.bindings i, s.notifies n with
  | some b, some x =>
    if b.notify ≠ none ∨ fits = false ∨ x.refs = refMax then s
    else
      (s.setNote n { x with refs := x.refs + 1, signallers := i :: x.signallers }).setBinding i
        { b with badge := badge, notify := some n }
  | _, _ => s

/-- `irq_unchain_signaller` and `irq_detach_notify`, around the detach of the line. -/
def unchainSignaller (s : State) (i : Nat) : State :=
  match s.bindings i with
  | none => s
  | some b =>
    match b.notify with
    | none => s
    | some n =>
      match s.notifies n with
      | none => s
      | some x => s.setNote n { x with signallers := x.signallers.erase i }

def irqDetach (s : State) (line : Nat) : State :=
  ({ s with table := update s.table line .default } : State).mask line

def detachNotify (s : State) (i : Nat) : State :=
  match s.bindings i with
  | none => s
  | some b =>
    match b.notify with
    | none => s
    | some n => (s.setBinding i { b with notify := none }).notifyRefDrop n

/-- `irq_ref_drop`. -/
def irqRefDrop (s : State) (i : Nat) : State :=
  match s.bindings i with
  | none => s
  | some b =>
    if 1 < b.refs then s.setBinding i { b with refs := b.refs - 1 }
    else
      let s := ((s.unchainSignaller i).irqDetach b.line).detachNotify i
      { s with bindings := update s.bindings i none }

/-- A copy of the capability: `obj_ref_inc`. -/
def irqCopy (s : State) (i : Nat) : State :=
  match s.bindings i with
  | none => s
  | some b => if b.refs = refMax then s else s.setBinding i { b with refs := b.refs + 1 }

/-- `irq_ack`: a binding that signals nothing is refused. -/
def irqAck (s : State) (i : Nat) : State := s.rearmLocked i

/-- `irq_discard`. -/
def irqDiscard (s : State) (i : Nat) : State :=
  match s.bindings i with
  | none => s
  | some b => s.clear b.line

/-- `notify_create`, into the free slot `n`. -/
def notifyCreate (s : State) (n : Nat) : State :=
  if s.notifies n ≠ none then s
  else
    let s := s.setNote n {}
    { s with caps := update s.caps n 1 }

def notifyCopy (s : State) (n : Nat) : State :=
  match s.notifies n with
  | none => s
  | some x =>
    if x.refs = refMax then s
    else
      let s := s.setNote n { x with refs := x.refs + 1 }
      { s with caps := update s.caps n (s.caps n + 1) }

/-- A capability of the notification closes. -/
def notifyClose (s : State) (n : Nat) : State :=
  ({ s with caps := update s.caps n (s.caps n - 1) } : State).notifyRefDrop n

/-- `notify_bind`. -/
def notifyBind (s : State) (c n : Nat) : State :=
  match s.notifies n with
  | none => s
  | some x =>
    if x.bound ≠ none ∨ s.notifyBound c ≠ none ∨ x.refs = refMax then s
    else
      let s := s.setNote n { x with bound := some c, accept := 0, refs := x.refs + 1 }
      { s with notifyBound := update s.notifyBound c (some n) }

/-- `notify_unbind_self`, and `notify_unbind` of the object the thread is bound to. -/
def notifyUnbind (s : State) (c : Nat) : State :=
  match s.notifyBound c with
  | none => s
  | some n =>
    let s := { s with notifyBound := update s.notifyBound c none }
    match s.notifies n with
    | none => s
    | some x => (s.setNote n { x with bound := none, accept := 0 }).notifyRefDrop n

/-- `notify_wait` up to its park. -/
def notifyWait (s : State) (c n : Nat) (mask : BitVec 32) (cancelled : Bool) : State × Outcome :=
  if mask = 0 then (s, .refused)
  else
    match s.notifies n with
    | none => (s, .refused)
    | some x =>
      if cancelled ∨ x.bound ≠ some c then (s, .refused)
      else
        let s := s.signallersRearm mask x.signallers
        if x.pending &&& mask ≠ 0 then
          let (s, bits) := s.takePending n mask
          (s, .took bits)
        else
          let s := s.setNote n { x with accept := mask }
          ({ s with wait := update s.wait c (.parked n mask) }, .parked)

/-- `notify_wait` past its park. -/
def notifyResume (s : State) (c : Nat) : State :=
  match s.wait c with
  | .woken n mask failed =>
    let s := { s with wait := update s.wait c .idle }
    match s.notifies n with
    | none => s
    | some x =>
      let s := s.setNote n { x with accept := 0 }
      if failed then s else (s.takePending n mask).1
  | _ => s

/-- `notify_wait_leave`. -/
def notifyWaitLeave (s : State) (c : Nat) (opened : BitVec 32) : State × BitVec 32 :=
  match s.notifyBound c with
  | none => (s, 0)
  | some n =>
    match s.notifies n with
    | none => (s, 0)
    | some x => (s.setNote n { x with accept := 0 }).takePending n opened

/-- `notify_wait_enter`. -/
def notifyWaitEnter (s : State) (c : Nat) (mask : BitVec 32) : State × BitVec 32 :=
  match s.notifyBound c with
  | none => (s, 0)
  | some n =>
    match s.notifies n with
    | none => (s, 0)
    | some x =>
      if mask = 0 then (s, 0)
      else ((s.signallersRearm mask x.signallers).setNote n { x with accept := mask }, mask)

/-- `notify_pending_of`. -/
def notifyPendingOf (s : State) (c : Nat) : BitVec 32 :=
  match (s.notifyBound c).bind s.notifies with
  | none => 0
  | some x => x.pending

/-- The notification side of a fused receive, up to its park; `parks` is whether the endpoint had nothing for it. -/
def fusedWait (s : State) (c : Nat) (allow : BitVec 32) (parks : Bool) : State × Outcome :=
  let (s, opened) := s.notifyWaitEnter c allow
  if s.notifyPendingOf c &&& opened ≠ 0 ∨ parks = false then
    let (s, bits) := s.notifyWaitLeave c opened
    (s, .took bits)
  else ({ s with wait := update s.wait c (.fused opened) }, .parked)

def fusedResume (s : State) (c : Nat) : State :=
  match s.wait c with
  | .fusedWoken opened => (({ s with wait := update s.wait c .idle } : State).notifyWaitLeave c opened).1
  | _ => s

/-- A wait ends without its bits: its time ran out, or it was cancelled. -/
def waitEnd (s : State) (c : Nat) : State :=
  match s.wait c with
  | .parked n mask => { s with wait := update s.wait c (.woken n mask true) }
  | .fused opened => { s with wait := update s.wait c (.fusedWoken opened) }
  | _ => s

/-- The exit of a thread, from wherever it waits. -/
def threadExit (s : State) (c : Nat) : State :=
  ({ s with wait := update s.wait c .idle } : State).notifyUnbind c

end State
end Irq
end KickOS
