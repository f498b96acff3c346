import KickOS.Cap.Table

/-! The state of the kernel on one core.

Threads, endpoints, notifications, word records and tasks are named by their pool slots. The intrusive lists of
the source (ready lists, wait queues, reply donors, held records, served endpoints, the timer list) are kept as
lists of slots. The build modelled is one kernel core, one node, with the switch deferred to the release of the
kernel lock: a locked section is one step, and `current` moves inside it. Idle is outside the pool; it is the
current thread exactly when `current` is `none`. -/

namespace KickOS
open Function (update)

abbrev Tid := Nat
abbrev Eid := Nat
abbrev Nid := Nat
abbrev Rid := Nat
abbrev TaskId := Nat
abbrev Key := Nat

/-- What a call answers: a count, or an error without its sign. -/
abbrev Answer := Except Errno Nat

inductive ThreadState where
  | inactive | ready | running | blocked | exited
  deriving DecidableEq, Repr

inductive CancelKind where
  | none | kill | slay
  deriving DecidableEq, Repr

/-- `NONE < KILL < SLAY`. -/
def CancelKind.level : CancelKind → Nat
  | .none => 0
  | .kill => 1
  | .slay => 2

inductive CallState where
  | none | sendWait | replyWait
  deriving DecidableEq, Repr

/-- `wait_kind` with its `wait_obj`. -/
inductive WaitEdge where
  | none
  | mutex (m : Rid)
  | notify (n : Nid)
  | epSend (e : Eid)
  | epRecv (e : Eid)
  | epReply (server : Tid)
  | sleep
  | join (t : Tid)
  | taskEmpty (k : TaskId)
  | console
  | word (m : Rid)
  deriving DecidableEq, Repr

/-- The list `wait_queue` points at. -/
inductive Queue where
  | send (e : Eid)
  | recv (e : Eid)
  | record (m : Rid)
  deriving DecidableEq, Repr

/-- `Thread::ipc`: the buffer a parked side offers, and what travels with it. -/
structure Ipc where
  buf : Nat := 0
  len : Nat := 0
  badge : Nat := 0
  badgeOut : Nat := 0
  deriving DecidableEq, Repr

/-- What a thread runs of its own system call once it is switched back in. -/
inductive Tail where
  | none
  /-- `endpoint_call` clears its call state. -/
  | call
  /-- A fused receive closes the notification window it opened. -/
  | recv (opened : Nat)
  /-- `notify_wait` closes its window, and takes the bits if nothing cut it short. -/
  | notify (n : Nid) (mask : Nat)
  /-- A wait for a task to empty drops the creator's hold. -/
  | taskEmpty (k : TaskId) (gen : Nat)
  /-- `exit_current` past its first locked section: what it left, and the slot its sweep has reached, `none` before
  the interrupt bindings are closed. -/
  | exit (task : Option TaskId) (gen : Nat) (swept : Option Nat)
  deriving DecidableEq, Repr

structure Thread where
  state : ThreadState := .inactive
  prio : Nat := 0
  basePrio : Nat := 0
  dying : Bool := false
  cancelKind : CancelKind := .none
  edge : WaitEdge := .none
  queue : Option Queue := .none
  waitResult : Answer := .ok 0
  lockId : Nat := 0
  onTimer : Bool := false
  deadline : Nat := 0
  heldList : List Rid := []
  replyWaiters : List Tid := []
  served : List Eid := []
  callState : CallState := .none
  callSeq : Nat := 0
  callRxCap : Nat := 0
  callFrameParked : Bool := false
  ipc : Ipc := {}
  notifyBound : Option Nat := .none
  caps : CapTable := {}
  /-- The `AUTH_*` bits. -/
  authority : Nat := 0
  /-- The slot's whole 32-bit generation (`wide_gen`). -/
  gen : Nat := 0
  task : Option TaskId := .none
  tail : Tail := .none

inductive ConsoleState where
  | none | served | ended
  deriving DecidableEq, Repr

structure Endpoint where
  sendWaiters : List Tid := []
  recvWaiters : List Tid := []
  recvHolders : Nat := 0
  handoutHolders : Nat := 0
  vacated : Bool := false
  console : ConsoleState := .none
  server : Option Tid := .none

structure Notification where
  pending : Nat := 0
  bound : Option Tid := .none
  accept : Nat := 0
  /-- How many interrupt bindings signal this object, each with a reference of its own. -/
  signallers : Nat := 0

inductive WordKind where
  | free | pi | plain
  deriving DecidableEq, Repr

structure WordRecord where
  key : Key := 0
  kind : WordKind := .free
  owner : Option Tid := .none
  waiters : List Tid := []

/-- A user word: its 31 value bits and `KOS_WORD_WAITERS`. -/
structure Word where
  value : Nat := 0
  waiters : Bool := false
  deriving DecidableEq, Repr

/-- The side arrays of a generational slot pool (`slotpool.h`). -/
structure Pool where
  count : Nat := 0
  fresh : Nat := 0
  free : List Nat := []
  gen : Nat → Nat := fun _ => 0
  refs : Nat → Nat := fun _ => 0

structure Task where
  refcount : Nat := 0
  sweeping : Nat := 0
  gen : Nat := 0
  ended : Bool := false
  ready : Bool := false
  /-- The kernel named the endpoint of the watch, so its creator cannot. -/
  seated : Bool := false
  console : Bool := false
  /-- The thread slot whose creator hold keeps the record. -/
  creator : Option Tid := .none
  watchNotify : Option Nat := .none
  watchEp : Option Nat := .none
  watchBit : Nat := 0

structure Kernel where
  thr : Tid → Thread := fun _ => {}
  /-- `threads.count()`. -/
  count : Nat := 0
  current : Option Tid := .none
  ready : Nat → List Tid := fun _ => []
  sleepq : List Tid := []
  ep : Eid → Endpoint := fun _ => {}
  endpoints : Pool := {}
  note : Nid → Notification := fun _ => {}
  notifies : Pool := {}
  wrec : Rid → WordRecord := fun _ => {}
  wordActive : List Rid := []
  words : Key → Word := fun _ => {}
  stdoutTarget : Option Nat := .none
  task : TaskId → Task := fun _ => {}
  taskCount : Nat := 0
  /-- The kernel's records held for the published console, each with the bytes no receive has taken. -/
  held : List (List Nat) := []
  mem : Nat → Nat := fun _ => 0
  /-- A kernel assertion has failed. -/
  faulted : Bool := false

namespace Kernel

variable (s : Kernel)

/-- `KICKOS_ASSERT`. -/
def assert (ok : Bool) : Kernel := { s with faulted := s.faulted || !ok }

def setThr (t : Tid) (x : Thread) : Kernel := { s with thr := update s.thr t x }

def onThr (t : Tid) (f : Thread → Thread) : Kernel := s.setThr t (f (s.thr t))

def onEp (e : Eid) (f : Endpoint → Endpoint) : Kernel := { s with ep := update s.ep e (f (s.ep e)) }

def onNote (n : Nid) (f : Notification → Notification) : Kernel :=
  { s with note := update s.note n (f (s.note n)) }

def onRec (m : Rid) (f : WordRecord → WordRecord) : Kernel :=
  { s with wrec := update s.wrec m (f (s.wrec m)) }

def onTask (k : TaskId) (f : Task → Task) : Kernel := { s with task := update s.task k (f (s.task k)) }

def setWord (k : Key) (w : Word) : Kernel := { s with words := update s.words k w }

def queueOf : Queue → List Tid
  | .send e => (s.ep e).sendWaiters
  | .recv e => (s.ep e).recvWaiters
  | .record m => (s.wrec m).waiters

def onQueue (q : Queue) (f : List Tid → List Tid) : Kernel :=
  match q with
  | .send e => s.onEp e fun x => { x with sendWaiters := f x.sendWaiters }
  | .recv e => s.onEp e fun x => { x with recvWaiters := f x.recvWaiters }
  | .record m => s.onRec m fun x => { x with waiters := f x.waiters }

end Kernel

/-! ### Handles -/

/-- `handle_pack`. -/
def handlePack (gen index : Nat) : Nat := gen % 2 ^ 16 * 2 ^ 16 + index

def handleIndex (handle : Nat) : Nat := handle % 2 ^ 16

def handleGen (handle : Nat) : Nat := handle / 2 ^ 16

namespace Pool

variable (p : Pool)

/-- A claimed slot that has not been released. -/
def Live (i : Nat) : Prop := i < p.fresh ∧ i ∉ p.free

instance (i : Nat) : Decidable (p.Live i) := inferInstanceAs (Decidable (_ ∧ _))

/-- `slot_claim`, past the admission: a never used slot first, then the one freed longest ago. -/
def claim : Option (Nat × Pool) :=
  if p.fresh < p.count then some (p.fresh, { p with fresh := p.fresh + 1 })
  else
    match p.free with
    | [] => none
    | i :: rest => some (i, { p with free := rest })

/-- `handle_for`. -/
def handleFor (i : Nat) : Nat := handlePack (p.gen i) i

/-- `slot_live_index`. -/
def liveIndex (handle : Nat) : Option Nat :=
  let i := handleIndex handle
  if i < p.count ∧ p.Live i ∧ p.gen i % 2 ^ 16 = handleGen handle then some i else none

/-- `slot_release`. -/
def release (handle : Nat) : Pool :=
  match p.liveIndex handle with
  | none => p
  | some i => { p with free := p.free ++ [i], gen := update p.gen i ((p.gen i + 1) % 2 ^ 32) }

/-- `pool_generation`. -/
def generation (handle : Nat) : Nat := if p.count ≤ handleIndex handle then 0 else p.gen (handleIndex handle)

def setRefs (i n : Nat) : Pool := { p with refs := update p.refs i n }

end Pool

end KickOS
