import KickOS.Lib.Ticket

/-! The nesting of the kernel lock (`kernel/sync/klock.cc`), and the brackets, switches and exceptions that move it.

A core runs a thread, or an exception on top of one. Each has some `IrqLock` brackets open, and the core's row counts
them. A switch made in thread context parks the thread inside `switch_to` with the depth `klock_detach` returned; one
booked inside an exception is performed at the exception's exit, and the depth is attached again at once. Either way
the lock stays held, as `owed`, until `kickos_switch_unlock` runs on the incoming frame.

The lock is a ticket lock, as on three of the four ports; the fourth queues in the same order. A core is masked while
it has a bracket open, waits for the lock or switches. Which thread a pass takes is the scheduler's, which takes none
that another core runs or stands on. A step of a core is what it does between two points where another core's step can
be seen; a reschedule word is the count of its asks, read modulo 2^32. -/

namespace KickOS
namespace Klock

def word : Nat := 2 ^ 32

/-- What a core waits for the lock for. -/
inductive Want where
  | enter
  | attach (depth : Nat)
  | start
  deriving DecidableEq, Repr

/-- What ended a span of the lock. -/
inductive End where
  | leave | switch | start
  deriving DecidableEq, Repr

inductive Phase (n : Nat) where
  /-- Not started. -/
  | boot
  /-- A number drawn, waiting for the lock. -/
  | acquire (want : Want)
  /-- Inside `sched::start`, the lock held. -/
  | starting
  | run
  /-- The outgoing frame is parked, and `kickos_switch_unlock` is next. -/
  | unlocking
  /-- The lock is released, and `span_end` is next. -/
  | spanEnd (kind : End)
  /-- Inside `klock_resched_take`: the cores still to be looked at, and whether any stood. -/
  | taking (rest : List (Fin n)) (stood : Bool)
  deriving DecidableEq, Repr

/-- Where a thread's registers are. -/
inductive Frame where
  /-- Built, or rebuilt, and not entered. -/
  | fresh
  /-- Inside `switch_to`, with the depth it detached. -/
  | parked (depth : Nat)
  /-- Saved by an exception's exit. -/
  | interrupted
  /-- On a core. -/
  | live
  deriving DecidableEq, Repr

structure Core (n : Nat) (T : Type) where
  depth : Nat
  owed : Nat
  phase : Phase n
  current : Option T
  onCpu : Option T
  /-- Inside an exception: the brackets it has open. -/
  isr : Option Nat
  /-- A switch waits for the exception's exit. -/
  booked : Bool
  /-- A take found something, and its pass has not been made. -/
  passOwed : Bool
  /-- `sched_out[me].raise`: the peers this span has work for. -/
  raise : Fin n → Bool
  /-- `g_asked[me]`. -/
  asked : Fin n → Nat
  /-- `g_took[me]`. -/
  took : Fin n → Nat

structure St (n : Nat) (T : Type) where
  lock : Lib.Ticket (Fin n)
  core : Fin n → Core n T
  frame : T → Frame
  /-- The brackets a thread has open. -/
  brackets : T → Nat
  /-- A doorbell raised and not taken. -/
  ipi : Fin n → Bool

inductive Act (n : Nat) (T : Type) where
  /-- `sched::start` up to the lock. -/
  | start (c : Fin n)
  /-- The rest of it, with the first thread it picks. -/
  | seat (c : Fin n) (first : T)
  /-- A bracket opens. -/
  | enter (c : Fin n)
  /-- The number a core waits with is served. -/
  | gain (c : Fin n)
  /-- The wait's poll takes a doorbell in the vector's place. -/
  | poll (c : Fin n)
  /-- A bracket ends. -/
  | leave (c : Fin n)
  /-- A scheduling pass, and the thread it switches to. -/
  | pass (c : Fin n) (next : Option T)
  /-- Work staged for a peer. -/
  | stage (c peer : Fin n)
  /-- `klock_resched_self`. -/
  | reschedSelf (c : Fin n)
  | switchUnlock (c : Fin n)
  /-- `span_end`, or the flush behind `sched::start`. -/
  | spanEnd (c : Fin n)
  /-- An interrupt that is no doorbell. -/
  | interrupt (c : Fin n)
  /-- The doorbell's vector, up to `klock_resched_take`. -/
  | doorbell (c : Fin n)
  /-- One core of the take. -/
  | take (c : Fin n)
  /-- A doorbell taken before the core has started. -/
  | bootTake (c sender : Fin n)
  | isrExit (c : Fin n)
  /-- A frame built for a thread no core has: a spawn, or the rebuild of a slain one. -/
  | build (t : T)
  deriving DecidableEq, Repr

namespace Act

variable {n : Nat} {T : Type}

def core : Act n T → Option (Fin n)
  | start c | seat c _ | enter c | gain c | poll c | leave c | pass c _ | stage c _ | reschedSelf c | switchUnlock c | spanEnd c
  | interrupt c | doorbell c | take c | bootTake c _ | isrExit c => some c
  | build _ => none

end Act

namespace Core

variable {n : Nat} {T : Type} (k : Core n T)

/-- The brackets open in what the core executes. -/
def opened (brackets : T → Nat) : Nat :=
  match k.isr with
  | some b => b
  | none =>
    match k.onCpu with
    | some t => brackets t
    | none => 0

def initial (n : Nat) (T : Type) : Core n T where
  depth := 0
  owed := 0
  phase := .boot
  current := none
  onCpu := none
  isr := none
  booked := false
  passOwed := false
  raise := fun _ => false
  asked := fun _ => 0
  took := fun _ => 0

end Core

namespace St

variable {n : Nat} {T : Type} [DecidableEq T] (s : St n T) (c : Fin n)

def setCore (k : Core n T) : St n T := { s with core := Function.update s.core c k }

def has (c : Fin n) (t : T) : Bool := decide ((s.core c).current = some t) || decide ((s.core c).onCpu = some t)

def elsewhere (t : T) : Bool := (List.finRange n).any fun d => decide (d ≠ c) && s.has d t

/-- One bracket more or fewer in what the core executes. -/
def bracket (f : Nat → Nat) : St n T :=
  match (s.core c).isr with
  | some b => s.setCore c { s.core c with isr := some (f b) }
  | none =>
    match (s.core c).onCpu with
    | some t => { s with brackets := Function.update s.brackets t (f (s.brackets t)) }
    | none => s

def acquire (want : Want) : St n T := { s with lock := s.lock.draw c }.setCore c { s.core c with phase := .acquire want }

/-- `drop`: the depth, what is owed and the lock. -/
def drop (kind : End) : St n T :=
  { s with lock := s.lock.release c }.setCore c { s.core c with depth := 0, owed := 0, phase := .spanEnd kind }

/-- `klock_detach`: the depth taken off the row, and the lock left held. -/
def klockDetach : St n T × Nat := (s.setCore c { s.core c with depth := 0, owed := 1 }, (s.core c).depth)

/-- `klock_attach`: nothing to acquire where the swap was merely booked. -/
def klockAttach (depth : Nat) : St n T :=
  if (s.core c).owed = 0 then s.acquire c (.attach depth) else s.setCore c { s.core c with depth := depth }

/-- `klock_enter`. -/
def klockEnter : St n T :=
  if (s.core c).depth = 0 ∧ (s.core c).owed = 0 then s.acquire c .enter
  else (s.setCore c { s.core c with depth := (s.core c).depth + 1 }).bracket c (· + 1)

/-- What the core does with the lock it waited for. -/
def klockGain (want : Want) : St n T :=
  let k := s.core c
  let s := { s with lock := s.lock.gain c }
  match want with
  | .enter => (s.setCore c { k with depth := k.depth + 1, phase := .run }).bracket c (· + 1)
  | .start => s.setCore c { k with depth := k.depth + 1, phase := .starting }
  | .attach depth =>
    let s := s.setCore c { k with depth := depth, phase := .run }
    match k.onCpu with
    | some t => { s with frame := Function.update s.frame t .live }
    | none => s

/-- `klock_leave`. -/
def klockLeave : St n T :=
  let k := s.core c
  let s := (s.setCore c { k with depth := k.depth - 1 }).bracket c (· - 1)
  if k.depth - 1 = 0 ∧ k.owed = 0 then
    { s with lock := s.lock.release c }.setCore c { s.core c with phase := .spanEnd .leave }
  else s

/-- `switch_to` in thread context: the thread parks with the depth it detaches. -/
def switchNow (t next : T) : St n T :=
  let d := (s.setCore c { s.core c with current := some next }).klockDetach c
  let s := d.1
  { s with frame := Function.update s.frame t (.parked d.2) }.setCore c { s.core c with phase := .unlocking }

/-- `switch_to` inside an exception: the switch is booked, and the depth attached at once. -/
def switchBooked (next : T) : St n T :=
  let d := (s.setCore c { s.core c with current := some next }).klockDetach c
  let s := d.1
  (s.setCore c { s.core c with booked := true }).klockAttach c d.2

/-- The incoming frame goes on: behind `switch_to` it attaches its depth, elsewhere it holds nothing. -/
def resume (t : T) : St n T :=
  match s.frame t with
  | .parked depth => s.klockAttach c depth
  | _ => { s with frame := Function.update s.frame t .live }.setCore c { s.core c with phase := .run }

/-- `resched_owed_on`. -/
def reschedOwedOn (c : Fin n) : Bool :=
  (List.finRange n).any fun i => decide ((s.core i).asked c % word ≠ (s.core c).took i % word)

/-- `sched_flush`: each peer with staged work is asked, its word before its doorbell. -/
def flush : St n T :=
  let k := s.core c
  { s with ipi := fun d => s.ipi d || (k.raise d && decide (d ≠ c)) }.setCore c
    { k with
      raise := fun _ => false
      asked := fun d => if k.raise d && decide (d ≠ c) then k.asked d + 1 else k.asked d }

/-- `span_end`: behind the flush a reschedule a poll absorbed is raised again; `sched::start` only flushes. -/
def spanRaise (kind : End) : St n T :=
  if kind ≠ .start ∧ (s.flush c).reschedOwedOn c then { s.flush c with ipi := Function.update (s.flush c).ipi c true }
    else s.flush c

/-- What comes behind the end of a span. -/
def goOn (kind : End) : St n T :=
  match kind, (s.core c).onCpu with
  | .leave, _ => s.setCore c { s.core c with phase := .run }
  | _, some t => s.resume c t
  | _, none => s

def endSpan (kind : End) : St n T := (s.spanRaise c kind).goOn c kind

/-- One core of `klock_resched_take`. -/
def takeFrom (i : Fin n) (rest : List (Fin n)) (stood : Bool) : St n T :=
  let k := s.core c
  let asked := (s.core i).asked c
  if asked % word ≠ k.took i % word then
    s.setCore c { k with took := Function.update k.took i asked, phase := .taking rest true }
  else s.setCore c { k with phase := .taking rest stood }

/-- One step, where its core is at the point it starts from. -/
def step : Act n T → Option (St n T)
  | .start c => if (s.core c).phase = .boot then some (s.acquire c .start) else none
  | .seat c first =>
    if (s.core c).phase = .starting ∧ s.elsewhere c first = false then
      let s := s.setCore c { s.core c with current := some first, onCpu := some first, passOwed := false }
      some (s.drop c .start)
    else none
  | .enter c => if (s.core c).phase = .run then some (s.klockEnter c) else none
  | .gain c =>
    match (s.core c).phase with
    | .acquire want => if s.lock.turn c then some (s.klockGain c want) else none
    | _ => none
  | .poll c =>
    match (s.core c).phase with
    | .acquire _ => some { s with ipi := Function.update s.ipi c false }
    | _ => none
  | .leave c => if (s.core c).phase = .run ∧ (s.core c).opened s.brackets ≠ 0 then some (s.klockLeave c) else none
  | .pass c next =>
    if (s.core c).phase = .run ∧ (s.core c).opened s.brackets ≠ 0 then
      let s := s.setCore c { s.core c with passOwed := false }
      match next with
      | none => some s
      | some next =>
        if s.elsewhere c next ∨ (s.core c).current = some next then none
        else
          match (s.core c).isr, (s.core c).onCpu with
          | some _, _ => some (s.switchBooked c next)
          | none, some t => some (s.switchNow c t next)
          | none, none => none
    else none
  | .stage c peer =>
    if (s.core c).phase = .starting ∨ ((s.core c).phase = .run ∧ (s.core c).opened s.brackets ≠ 0) then
      some (s.setCore c { s.core c with raise := Function.update (s.core c).raise peer true })
    else none
  | .reschedSelf c =>
    if (s.core c).phase = .starting ∨ ((s.core c).phase = .run ∧ (s.core c).opened s.brackets ≠ 0) then
      some (s.setCore c { s.core c with asked := Function.update (s.core c).asked c ((s.core c).asked c + 1) })
    else none
  | .switchUnlock c =>
    if (s.core c).phase = .unlocking then
      some ((s.setCore c { s.core c with onCpu := (s.core c).current }).drop c .switch)
    else none
  | .spanEnd c =>
    match (s.core c).phase with
    | .spanEnd kind => some (s.endSpan c kind)
    | _ => none
  | .interrupt c =>
    if (s.core c).phase = .run ∧ (s.core c).isr = none ∧ (s.core c).opened s.brackets = 0 then
      some (s.setCore c { s.core c with isr := some 0 })
    else none
  | .doorbell c =>
    if (s.core c).phase = .run ∧ (s.core c).isr = none ∧ (s.core c).opened s.brackets = 0 ∧ s.ipi c = true then
      some ({ s with ipi := Function.update s.ipi c false }.setCore c
        { s.core c with isr := some 0, phase := .taking (List.finRange n) false })
    else none
  | .take c =>
    match (s.core c).phase with
    | .taking (i :: rest) stood => some (s.takeFrom c i rest stood)
    | .taking [] stood => some (s.setCore c { s.core c with phase := .run, passOwed := (s.core c).passOwed || stood })
    | _ => none
  | .bootTake c i =>
    if (s.core c).phase = .boot ∧ (s.core i).asked c % word ≠ (s.core c).took i % word then
      some (s.setCore c
        { s.core c with took := Function.update (s.core c).took i ((s.core i).asked c), passOwed := true })
    else none
  | .isrExit c =>
    if (s.core c).phase = .run ∧ (s.core c).isr = some 0 ∧ (s.core c).passOwed = false then
      match (s.core c).booked, (s.core c).onCpu with
      | false, _ => some (s.setCore c { s.core c with isr := none })
      | true, some t =>
        some ({ s with frame := Function.update s.frame t .interrupted }.setCore c
          { s.core c with isr := none, booked := false, phase := .unlocking })
      | true, none => none
    else none
  | .build t =>
    if (List.finRange n).any (fun d => s.has d t) then none
    else some { s with frame := Function.update s.frame t .fresh, brackets := Function.update s.brackets t 0 }

end St

/-- Every core before its start, no thread entered. -/
def initial (n : Nat) (T : Type) : St n T where
  lock := Lib.Ticket.free (Fin n)
  core := fun _ => Core.initial n T
  frame := fun _ => .fresh
  brackets := fun _ => 0
  ipi := fun _ => false

inductive Reachable {n : Nat} {T : Type} [DecidableEq T] : St n T → Prop
  | init : Reachable (initial n T)
  | step {s s' : St n T} {a : Act n T} : Reachable s → s.step a = some s' → Reachable s'

end Klock
end KickOS
