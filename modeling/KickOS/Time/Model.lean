import Mathlib.Tactic
import KickOS.Lib.Linked

/-! The tickless time of `kernel/time`: the queue of deadlines, the one-shot timer of each core and the wall clock.

An act is one call made under the kernel lock; a path of the kernel is a run of such acts. The clock counts without end and
is read modulo 2^64. What the scheduler picks, and what a slice ends at, is any answer. -/

namespace KickOS
namespace Time

open Lib.Linked
open Function (update)

/-- `UINT64_MAX`. -/
def u64Max : Nat := 2 ^ 64 - 1

/-- `KICKOS_TIMER_MIN_DELTA_NS`. -/
def minDelta : Nat := 20000

inductive RunState
  | inactive
  | ready
  | running
  | blocked
  | exited
  deriving DecidableEq

/-- `kernel().sleepq`, and the local list of a wall shift. -/
inductive Root
  | sleepq
  | moved
  deriving DecidableEq

structure Thread where
  state : RunState := .inactive
  /-- `deadline_ns`. -/
  deadline : Nat := 0
  onTimer : Bool := false
  timerWall : Bool := false
  /-- `policy_next_timed_event` of the thread. -/
  timedEvent : Nat := 0
  /-- The thread's place in the order of arrivals on the queue. -/
  arrived : Nat := 0
  /-- A wall shift has moved the deadline since. -/
  shifted : Bool := false
  /-- The wall time it waits for, and the instant of its arm. -/
  target : Nat := 0
  armedAt : Nat := 0

structure State where
  /-- `threads.count()`: idle threads are beyond it. -/
  count : Nat
  thread : Nat → Thread
  /-- The roots and every `tnext`. -/
  links : Heap Root Nat
  /-- `timer_armed_ns`. -/
  armed : Nat → Nat
  /-- What each core's comparator was last programmed for. -/
  comparator : Nat → Nat
  current : Nat → Option Nat
  /-- The offset the marked deadlines are keyed to. -/
  offset : Nat
  clock : Nat
  /-- How many arrivals the queue has had, and when the wall clock was last moved. -/
  arrivals : Nat
  lastSet : Nat

/-- `ktime_floored`. -/
def floored (now deadline : Nat) : Nat :=
  let floor := (now + minDelta) % 2 ^ 64
  if deadline < floor then floor else deadline

/-- `shifted`: held inside the 64-bit range. -/
def shifted (d : Nat) (move : Int) : Nat :=
  if move < 0 then
    let back := (-move).toNat
    if d ≤ back then 0 else d - back
  else
    let ahead := move.toNat
    if u64Max - d < ahead then u64Max else d + ahead

/-- `static_cast<int64_t>`. -/
def asInt64 (n : Nat) : Int := if n < 2 ^ 63 then n else n - 2 ^ 64

/-- The limit of a timed wait, two words. -/
structure WaitLimit where
  lo : BitVec 32
  hi : BitVec 32

namespace WaitLimit

def onWall (w : WaitLimit) : Bool := w.hi &&& 0x80000000#32 != 0#32

def unixNs (w : WaitLimit) : Nat := (w.hi &&& ~~~0x80000000#32).toNat * 2 ^ 32 + w.lo.toNat

end WaitLimit

/-- `KOS_TIMEOUT_NONE`. -/
def timeoutNone : BitVec 32 := 0xFFFFFFFF#32

/-- What a pass seats: the thread, the end of its slice and, with a periodic tick, the next one. -/
structure Pass where
  next : Nat
  timedEvent : Nat
  tick : Option Nat := none

/-- What a timer interrupt meets: the slice its round robin leaves, the passes it takes and the tick it ends with. -/
structure Interrupt where
  slice : Nat := u64Max
  rotate : Option Pass := none
  pick : Nat → Option Pass := fun _ => none
  tick : Option Nat := none

namespace State

/-- `ktime_now`. -/
def now (s : State) : Nat := s.clock % 2 ^ 64

def setThread (s : State) (t : Nat) (f : Thread → Thread) : State :=
  { s with thread := update s.thread t (f (s.thread t)) }

/-- `sleepq_insert_from`: from `pp` on, and the link after `t`. -/
def sleepqInsertFrom (s : State) (pp : Link Root Nat) (t : Nat) : State × Link Root Nat :=
  let gap := s.links.walk (fun a => (s.thread a).deadline ≤ (s.thread t).deadline) s.count pp
  ({ s with
      thread := update s.thread t { s.thread t with onTimer := true }
      links := (s.links.put (.next t) (s.links.get gap)).put gap (some t) }, .next t)

def sleepqInsert (s : State) (t : Nat) (wall : Bool) : State :=
  let r := (s.sleepqInsertFrom (.root .sleepq) t).1
  { r with
    thread := update r.thread t { r.thread t with timerWall := wall, arrived := s.arrivals, shifted := false }
    arrivals := s.arrivals + 1 }

def sleepqRemove (s : State) (t : Nat) : State :=
  let gap := s.links.walk (fun a => a != t) s.count (.root .sleepq)
  if s.links.get gap = some t then
    { s with
      thread := update s.thread t { s.thread t with onTimer := false, timerWall := false }
      links := (s.links.put gap (s.links.next t)).put (.next t) none }
  else s

def headDeadline (s : State) : Nat :=
  match s.links.root .sleepq with
  | none => u64Max
  | some t => (s.thread t).deadline

/-- `sched::next_timed_event`. -/
def nextTimedEvent (s : State) (incoming : Option Nat) : Nat :=
  match incoming with
  | none => u64Max
  | some t => (s.thread t).timedEvent

/-- `ktime_rearm`: `tick` is the next periodic tick where the build has one. -/
def ktimeRearm (s : State) (core : Nat) (incoming : Option Nat) (tick : Option Nat) : State :=
  let next := s.headDeadline
  let event := s.nextTimedEvent incoming
  let next := if event < next then event else next
  let periodic := tick.getD u64Max
  let next := if periodic < next then periodic else next
  if next = s.armed core then s
  else { s with armed := update s.armed core next, comparator := update s.comparator core next }

def ktimeDisarm (s : State) (core : Nat) : State :=
  { s with armed := update s.armed core u64Max, comparator := update s.comparator core u64Max }

def ktimeDeadlineArmAt (s : State) (t deadline : Nat) (wall : Bool) : State :=
  (s.setThread t fun x => { x with deadline := deadline }).sleepqInsert t wall

def ktimeDeadlineArm (s : State) (t : Nat) (timeout : BitVec 32) : State :=
  if timeout = timeoutNone then s
  else s.ktimeDeadlineArmAt t (floored s.now ((s.now + timeout.toNat * 1000) % 2 ^ 64)) false

/-- `realtime_deadline_arm`. -/
def realtimeDeadlineArm (s : State) (t unixNs : Nat) : State :=
  let wall := (s.now + s.offset) % 2 ^ 64
  let left := if wall < unixNs then unixNs - wall else 0
  let deadline := (s.now + left) % 2 ^ 64
  let deadline := if deadline < s.now then u64Max else deadline
  (s.setThread t fun x => { x with target := unixNs, armedAt := s.clock }).ktimeDeadlineArmAt t (floored s.now deadline) true

def ktimeLimitArm (s : State) (t : Nat) (limit : WaitLimit) : State :=
  if limit.onWall then s.realtimeDeadlineArm t limit.unixNs else s.ktimeDeadlineArm t limit.lo

/-- `ktime_sleep_until`, up to its pass. -/
def ktimeSleepUntil (s : State) (t deadline : Nat) : State :=
  ((s.setThread t fun x => { x with deadline := floored s.now deadline }).setThread t fun x =>
    { x with state := .blocked }).sleepqInsert t false

/-- The first loop of `ktime_wall_shift`: the marked deadlines leave the queue in its order. -/
def pullWall (now : Nat) (move : Int) : Nat → State → Link Root Nat → Link Root Nat → State
  | 0, s, _, _ => s
  | n + 1, s, tail, pp =>
    match s.links.get pp with
    | none => s
    | some t =>
      if (s.thread t).timerWall = false then pullWall now move n s tail (.next t)
      else
        let x := s.thread t
        pullWall now move n
          { s with
            thread := update s.thread t
              { x with deadline := floored now (Time.shifted x.deadline move), shifted := true }
            links := ((s.links.put pp (s.links.next t)).put (.next t) none).put tail (some t) } (.next t) pp

/-- The second loop: each goes back in from the link after the one before it. -/
def mergeWall : Nat → State → Link Root Nat → State
  | 0, s, _ => s
  | n + 1, s, pp =>
    match s.links.root .moved with
    | none => s
    | some t =>
      let r := { s with links := s.links.put (.root .moved) (s.links.next t) }.sleepqInsertFrom pp t
      mergeWall n r.1 r.2

def ktimeWallShift (s : State) (core : Nat) (move : Int) (tick : Option Nat) : State :=
  if move = 0 then s
  else
    let p := pullWall s.now move s.count s (.root .moved) (.root .sleepq)
    if p.links.root .moved = none then p
    else (mergeWall s.count p (.root .sleepq)).ktimeRearm core (s.current core) tick

/-- `wall_keyed`: the marked deadlines move to the offset of the newest set. -/
def wallKeyed (s : State) (core newest : Nat) (tick : Option Nat) : State :=
  { s.ktimeWallShift core (asInt64 ((s.offset + 2 ^ 64 - newest) % 2 ^ 64)) tick with
    offset := newest
    lastSet := if newest = s.offset then s.lastSet else s.clock }

/-- `realtime_set`: the offset is taken at one reading, the floor of the shift `late` after it. -/
def realtimeSet (s : State) (core unixNs late : Nat) (tick : Option Nat) : State :=
  { s with clock := s.clock + late }.wallKeyed core ((unixNs + 2 ^ 64 - s.now) % 2 ^ 64) tick

def ktimeDeadlineCancel (s : State) (t : Nat) : State :=
  if (s.thread t).onTimer = false then s else s.sleepqRemove t

/-- `wake_no_resched`: the unpark funnel. -/
def wakeNoResched (s : State) (t : Nat) : State × Bool :=
  let s := if (s.thread t).onTimer then s.ktimeDeadlineCancel t else s
  if (s.thread t).state = .blocked then (s.setThread t fun x => { x with state := .ready }, true) else (s, false)

def displace (s : State) (core : Nat) : State :=
  match s.current core with
  | none => s
  | some prev =>
    if (s.thread prev).state = .running then s.setThread prev fun x => { x with state := .ready } else s

/-- `switch_book`, and `sched::start` where nothing ran yet. -/
def switchBook (s : State) (core : Nat) (p : Pass) : State :=
  let s := (s.displace core).setThread p.next fun x => { x with state := .running, timedEvent := p.timedEvent }
  { s with current := update s.current core (some p.next) }.ktimeRearm core (some p.next) p.tick

/-- `pick_and_seat`: the pick is ready, or the running thread stays. -/
def pickAndSeat (s : State) (core : Nat) (pick : Option Pass) : State :=
  match pick with
  | none => s
  | some p => if (s.thread p.next).state = .ready then s.switchBook core p else s

/-- `sched::tick_rr`. -/
def tickRr (s : State) (core now : Nat) (i : Interrupt) : State :=
  match s.current core with
  | none => s
  | some c =>
    if now < (s.thread c).timedEvent then s
    else (s.setThread c fun x => { x with timedEvent := i.slice }).pickAndSeat core i.rotate

/-- The loop of `ktime_on_timer`, with the threads it wakes. -/
def expire (core now : Nat) (pick : Nat → Option Pass) : Nat → State → State × List Nat
  | 0, s => (s, [])
  | n + 1, s =>
    match s.links.root .sleepq with
    | none => (s, [])
    | some t =>
      if (s.thread t).deadline ≤ now then
        let w := (s.sleepqRemove t).wakeNoResched t
        if w.2 then
          let r := expire core now pick n (w.1.pickAndSeat core (pick t))
          (r.1, t :: r.2)
        else expire core now pick n w.1
      else (s, [])

def ktimeOnTimer (s : State) (core : Nat) (i : Interrupt) : State × List Nat :=
  let r := expire core s.now i.pick s.count ((s.ktimeDisarm core).tickRr core s.now i)
  (r.1.ktimeRearm core (r.1.current core) i.tick, r.2)

end State

/-- What boot leaves: `timer_armed_ns` is 0 over whatever the comparators hold. -/
def boot (count clock : Nat) (comparator : Nat → Nat) : State where
  count := count
  thread t := { state := if t < count then .inactive else .ready }
  links := { root := fun _ => none, next := fun _ => none }
  armed _ := 0
  comparator := comparator
  current _ := none
  offset := 0
  clock := clock
  arrivals := 0
  lastSet := clock

/-- What happens under the kernel lock, on a core where one matters. -/
inductive Act
  | pass (n : Nat)
  | sleepUntil (core c deadline : Nat)
  /-- A park, with `KOS_TIMEOUT_NONE` where it has no deadline. -/
  | park (core c : Nat) (limit : WaitLimit)
  /-- Every wake, `thread_abort_park` of a cancel, a slay and a torn wait among them. -/
  | wake (t : Nat)
  | seat (core : Nat) (p : Pass)
  | slice (t event : Nat)
  | exit (core c : Nat)
  /-- `thread_create` clears the slot, and `sched::add` readies it. -/
  | create (t : Nat)
  | set (core unixNs late : Nat) (tick : Option Nat)
  /-- `realtime_rekey`: a set of another node. -/
  | rekey (core newest : Nat) (tick : Option Nat)
  | timer (core : Nat) (i : Interrupt)
  /-- The timer side of `cpu_clock_set`. -/
  | retune (core : Nat) (tick : Option Nat)

namespace State

def Runs (s : State) (core c : Nat) : Prop := c < s.count ∧ s.current core = some c ∧ (s.thread c).state = .running

def Enabled (s : State) : Act → Prop
  | .sleepUntil core c _ => s.Runs core c
  | .park core c _ => s.Runs core c
  | .seat _ p => (s.thread p.next).state = .ready
  | .exit core c => s.Runs core c
  | .create t => (s.thread t).state = .inactive ∨ (s.thread t).state = .exited
  | .set _ unixNs _ _ => unixNs < 2 ^ 64
  | .rekey _ newest _ => newest < 2 ^ 64
  | _ => True

def exec (s : State) : Act → State
  | .pass n => { s with clock := s.clock + n }
  | .sleepUntil _ c deadline => s.ktimeSleepUntil c deadline
  | .park _ c limit => (s.setThread c fun x => { x with state := .blocked }).ktimeLimitArm c limit
  | .wake t => (s.wakeNoResched t).1
  | .seat core p => s.switchBook core p
  | .slice t event => s.setThread t fun x => { x with timedEvent := event }
  | .exit _ c => s.setThread c fun x => { x with state := .exited }
  | .create t => { s with thread := update s.thread t { state := .ready }, links := s.links.put (.next t) none }
  | .set core unixNs late tick => s.realtimeSet core unixNs late tick
  | .rekey core newest tick => s.wallKeyed core newest tick
  | .timer core i => (s.ktimeOnTimer core i).1
  | .retune core tick => (s.ktimeDisarm core).ktimeRearm core (s.current core) tick

end State

inductive Reachable : State → Prop
  | boot (count clock : Nat) (comparator : Nat → Nat) : Reachable (boot count clock comparator)
  | step {s : State} (h : Reachable s) (a : Act) (ha : s.Enabled a) : Reachable (s.exec a)

end Time
end KickOS
