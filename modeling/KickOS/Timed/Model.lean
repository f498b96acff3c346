import Mathlib.Tactic

/-! The timed waits of the C++ runtime (`user/src/gthr.cc`, over `mutex.cc` and `cond.cc`): one call with the two
clocks, the words its compare-and-swaps see and the answers of the kernel. -/

namespace KickOS.Timed

/-- `struct timespec`: the seconds are an `int64_t`. -/
structure Timespec where
  sec : Int
  nsec : Int
  sec_ge : -2 ^ 63 ≤ sec
  sec_lt : sec < 2 ^ 63

inductive Clock where
  | monotonic | realtime | other
  deriving DecidableEq

/-- `INT64_MAX`. -/
def int64Max : Int := 2 ^ 63 - 1

/-- `KOS_TIMEOUT_NONE`. -/
def timeoutNone : Nat := 2 ^ 32 - 1

def nsecValid (abs : Timespec) : Prop := 0 ≤ abs.nsec ∧ abs.nsec < 1000000000

instance (abs : Timespec) : Decidable (nsecValid abs) := inferInstanceAs (Decidable (_ ∧ _))

/-- `ns_until` of a reading of the clock, none for a clock with no wait. Where the difference of the seconds is no
`int64_t` the code is undefined. -/
def nsUntil (now : Option (BitVec 64)) (abs : Timespec) : Option Int :=
  if ¬ nsecValid abs then some (-1)
  else
    match now with
    | none => some (-1)
    | some ns =>
      let sec := abs.sec - (ns.toNat / 1000000000 : Nat)
      let nsec := abs.nsec - (ns.toNat % 1000000000 : Nat)
      if sec < -2 ^ 63 then none
      else if sec < 0 then some 0
      else if int64Max / 1000000000 - 1 < sec then some int64Max
      else if sec * 1000000000 + nsec < 0 then some 0
      else some (sec * 1000000000 + nsec)

/-- `wall_ns`. -/
def wallNs (abs : Timespec) : Option Nat :=
  if ¬ nsecValid abs then none
  else if abs.sec < 0 then some 0
  else if (2 ^ 64 - 1 - 1000000000) / 1000000000 < abs.sec then some (2 ^ 64 - 1)
  else some (abs.sec * 1000000000 + abs.nsec).toNat

/-- `us_of`. -/
def usOf (ns : Int) : Nat :=
  let us := if ns % 1000 ≠ 0 then ns / 1000 + 1 else ns / 1000
  if (timeoutNone : Int) ≤ us then timeoutNone - 1 else us.toNat

/-- The latest wall-clock deadline the kernel's limit holds. -/
def latest : Nat := 2 ^ 63 - 1

/-- The deadline in `kos_limit_realtime`. -/
def limitRealtime (unixNs : Nat) : Nat := if latest < unixNs then latest else unixNs

inductive Errno where
  | ok | etimedout | edeadlk | eperm | eagain | efault | einval
  deriving DecidableEq

/-- `-KOS_ETIMEDOUT`, `-KOS_ECANCELED`, `-KOS_EOWNERDEAD` and the others of `errno_of`. -/
def etimedout : Int := -110

def ecanceled : Int := -125

def eownerdead : Int := -130

def edeadlk : Int := -35

def eagain : Int := -11

def errnoOf (rc : Int) : Errno :=
  if rc = 0 then .ok
  else if rc = etimedout then .etimedout
  else if rc = edeadlk then .edeadlk
  else if rc = -1 then .eperm
  else if rc = eagain ∨ rc = -12 then .eagain
  else if rc = -14 then .efault
  else .einval

/-- The limit of a wait of the kernel: microseconds, or a time of the wall clock. -/
inductive Limit where
  | us (n : Nat)
  | wall (unixNs : Nat)
  deriving DecidableEq

inductive Kind where
  | mutex | recursive | cond
  deriving DecidableEq

/-- `__kickos_gthr_mutex_clocklock`, `__kickos_gthr_recursive_mutex_clocklock` or `__kickos_gthr_cond_clockwait`. -/
structure Call where
  kind : Kind
  clock : Clock
  abs : Timespec
  /-- `kickos_self_lock_id()`. -/
  self : BitVec 32

/-- Where the call is. -/
inductive Pc where
  | begin
  /-- In `timed_take`. -/
  | timed
  /-- At the compare-and-swap of `kos_mutex_lock`. -/
  | lock (lim : Limit)
  /-- In the kernel's lock, for the first time or once more after a kill. -/
  | locking (lim : Limit) (again : Bool)
  /-- `take` or `take_wall` has answered. -/
  | locked (rc : Int)
  /-- In `kos_cond_wait`, at the load of the sequence and at the unlock. -/
  | enter (lim : Limit)
  | unlock (lim : Limit)
  | unlocking (lim : Limit)
  /-- At the compare-and-swap of the condition variable. -/
  | arm (lim : Limit)
  /-- In the kernel's wait. -/
  | waiting (lim : Limit)
  /-- In `retake`, with the answer of the wait. -/
  | relock (waited : Int)
  | relocking (waited : Int)
  /-- `kos_cond_wait` has answered. -/
  | answered (rc : Int)
  | done (e : Errno)
  /-- `owner_died`. -/
  | trapped
  deriving DecidableEq

/-- The call and the clocks, with `seq` the sequence of the condition variable, `read` the last reading of the monotonic
one for the call and `high` the highest value of the wall clock since the call began. -/
structure Sys where
  now : BitVec 64
  wall : BitVec 64
  pc : Pc := .begin
  left : Int := 0
  seq : BitVec 32 := 0
  read : BitVec 64 := 0
  high : BitVec 64

inductive Op where
  /-- The call goes on; `seen` is the word its compare-and-swap sees there. -/
  | run (seen : BitVec 32)
  /-- The kernel answers. -/
  | answer (rc : Int)
  | tick (now : BitVec 64)
  | set (wall : BitVec 64)

/-- `KOS_WORD_WAITERS`. -/
def waitersBit : BitVec 32 := 0x80000000

namespace Sys

variable (c : Call) (x : Sys)

def reading : Option (BitVec 64) :=
  match c.clock with
  | .monotonic => some x.now
  | .realtime => some x.wall
  | .other => none

/-- What `ns_until` leaves. -/
def looked (left : Int) : Sys := { x with left := left, read := x.now }

/-- The answer of `take`, `take_wall` or a cancelled one. -/
def taken (lim : Limit) (rc : Int) : Sys :=
  if rc = ecanceled then { x with pc := .locking lim true }
  else if rc = eownerdead then { x with pc := .trapped }
  else { x with pc := .locked rc }

/-- `cond_timed`, in front of the wait. -/
def condTimed : Option Sys :=
  (nsUntil (x.reading c) c.abs).map fun left =>
    if left < 0 then { x.looked left with pc := .done .einval }
    else if left = 0 then { x.looked left with pc := .done .etimedout }
    else if c.clock = .realtime then { x.looked left with pc := .enter (.wall (limitRealtime ((wallNs c.abs).getD 0))) }
    else { x.looked left with pc := .enter (.us (usOf left)) }

/-- `timed_take`, in front of the first lock. -/
def timedTake : Option Sys :=
  if c.clock = .realtime then
    match wallNs c.abs with
    | none => some { x with pc := .done .einval }
    | some unixNs => some { x with pc := .lock (.wall (limitRealtime unixNs)) }
  else
    (nsUntil (x.reading c) c.abs).map fun left =>
      if left < 0 then { x.looked left with pc := .done .einval } else { x.looked left with pc := .lock (.us (usOf left)) }

/-- `timed_take`, behind a lock. -/
def timedAgain (rc : Int) : Option Sys :=
  if c.clock = .realtime ∨ rc ≠ etimedout ∨ x.left = 0 then some { x with pc := .done (errnoOf rc) }
  else
    (nsUntil (x.reading c) c.abs).map fun left =>
      if left = 0 then { x.looked left with pc := .done .etimedout } else { x.looked left with pc := .lock (.us (usOf left)) }

/-- `cond_answer`, and what `cond_timed` makes of it. -/
def condAgain (rc : Int) : Option Sys :=
  if rc = eownerdead then some { x with pc := .trapped }
  else if c.clock = .realtime ∨ errnoOf rc ≠ .etimedout then some { x with pc := .done (errnoOf rc) }
  else
    (nsUntil (x.reading c) c.abs).map fun left =>
      if left ≠ 0 then { x.looked left with pc := .done .ok } else { x.looked left with pc := .done .etimedout }

def go (seen : BitVec 32) : Option Sys :=
  match x.pc with
  | .begin =>
    match c.kind with
    | .mutex => some { x with pc := .timed }
    | .recursive => some { x with pc := if seen &&& ~~~waitersBit = c.self then .done .ok else .timed }
    | .cond => x.condTimed c
  | .timed => x.timedTake c
  | .lock lim =>
    some { x with
      pc := if seen = 0 then .locked 0 else if seen &&& ~~~waitersBit = c.self then .locked edeadlk
        else .locking lim false }
  | .locked rc => x.timedAgain c rc
  | .enter lim => some { x with seq := seen &&& ~~~waitersBit, pc := .unlock lim }
  | .unlock lim =>
    some { x with
      pc := if seen = c.self then .arm lim else if seen &&& ~~~waitersBit ≠ c.self then .answered (-1) else .unlocking lim }
  | .arm lim => some { x with pc := if seen = x.seq ∨ seen = x.seq ||| waitersBit then .waiting lim else .relock 0 }
  | .relock waited =>
    some { x with
      pc := if waited = ecanceled then .relocking waited
        else if seen = 0 then .answered waited
        else if seen &&& ~~~waitersBit = c.self then .answered edeadlk
        else .relocking waited }
  | .answered rc => x.condAgain c rc
  | .locking _ _ | .unlocking _ | .waiting _ | .relocking _ | .done _ | .trapped => none

/-- A realtime wait times out once the wall clock has reached the time it was given. -/
def Timely (lim : Limit) (rc : Int) : Prop :=
  match lim with
  | .us _ => True
  | .wall unixNs => rc = etimedout → unixNs ≤ x.wall.toNat

instance (lim : Limit) (rc : Int) : Decidable (x.Timely lim rc) :=
  match lim with
  | .us _ => isTrue trivial
  | .wall unixNs => inferInstanceAs (Decidable (rc = etimedout → unixNs ≤ x.wall.toNat))

/-- The answers of the kernel. An unlock, and a lock without a timeout, do not time out. -/
def answer (rc : Int) : Option Sys :=
  match x.pc with
  | .locking lim _ => if x.Timely lim rc then some (x.taken lim rc) else none
  | .unlocking lim => if rc = etimedout then none else some { x with pc := if rc = 0 then .arm lim else .answered rc }
  | .waiting lim => if x.Timely lim rc then some { x with pc := .relock (if rc = 1 ∨ rc = eagain then 0 else rc) } else none
  | .relocking waited =>
    if rc = etimedout then none
    else some { x with pc := if rc = ecanceled then .relocking waited else if rc ≠ 0 then .answered rc else .answered waited }
  | _ => none

def step : Op → Option Sys
  | .run seen => x.go c seen
  | .answer rc => x.answer rc
  | .tick now => if x.now ≤ now then some { x with now := now } else none
  | .set wall => some { x with wall := wall, high := if x.high ≤ wall then wall else x.high }

def run (x : Sys) : List Op → Option Sys
  | [] => some x
  | op :: ops => (x.step c op).bind (run · ops)

end Sys

/-- A run of the call from the given times on. -/
inductive Reachable (c : Call) : Sys → Prop where
  | call (now wall : BitVec 64) : Reachable c { now := now, wall := wall, high := wall }
  | step {x y : Sys} (op : Op) (hx : Reachable c x) (hs : x.step c op = some y) : Reachable c y

def Timespec.ns (abs : Timespec) : Int := abs.sec * 1000000000 + abs.nsec

/-- The named clock has reached the deadline; the wall clock, or the latest time the kernel's limit holds. -/
def Reached (c : Call) (x : Sys) : Prop :=
  match c.clock with
  | .monotonic => c.abs.ns ≤ x.now.toNat
  | .realtime => min c.abs.ns latest ≤ x.high.toNat
  | .other => False

end KickOS.Timed
