import KickOS.Cap.FreeList
import KickOS.Kernel.Thread
import KickOS.Cap.TableRun
import KickOS.Kernel.Tables

/-! The operations that make, move and drop capabilities and those that send through them, in any order: create and
badge an endpoint, narrow, close, spawn with grants, exit, publish a console, send, call and receive.

`born` is no part of the state: it counts how often each endpoint slot was claimed, which tells apart the endpoints
that live in one slot, one after the other. -/

namespace KickOS

namespace Kernel

variable (s : Kernel)

/-- The live entry of slot `i` in the table of `t`. -/
def holding (t : Tid) (i : Nat) : Option CapEntry :=
  if i < (s.thr t).caps.width then (s.thr t).caps.live i else none

/-- The entry is a capability on the endpoint in slot `e`. -/
def Names (x : CapEntry) (e : Eid) : Prop :=
  x.type = .endpoint ∧ s.capObjLive x = true ∧ s.endpoints.liveIndex x.obj = some e

/-- `cap_console_publish_through` of a handle. -/
def publish (c : Tid) (cap : Nat) (servedBy : Option TaskId) (windowHeld : Bool) (admitted : Option TaskId → Bool) :
    Kernel × Answer :=
  match capLookup (s.thr c).caps cap with
  | none => (s, .error .ebadf)
  | some idx =>
    if ((s.thr c).caps.slots idx).type ≠ .endpoint then (s, .error .ebadf)
    else s.capConsolePublishThrough c idx servedBy windowHeld admitted

/-- The endpoint on which a send or call that answered `r` has left its message. -/
def parksOn (c : Tid) (cap : Nat) (r : Attempt) : Option Eid :=
  match s.capResolve c cap .endpoint { signal := true }, r with
  | .ok e, .parked => if s.wqPeekHighest (s.ep e).recvWaiters = none then some e else none
  | _, _ => none

end Kernel

namespace Cap

inductive Op where
  | create (c : Tid) (admitted : Bool)
  | badge (c : Tid) (srcCap value : Nat)
  | narrow (c : Tid) (cap : Nat) (mask : Rights)
  | narrowAuthority (c : Tid) (mask : Nat)
  | close (c : Tid) (cap : Nat)
  | spawn (c child : Tid) (k : TaskId) (prio width authority : Nat) (grants : List Grant) (chunks : List Nat)
      (driver admitted grantsAdmitted : Bool)
  | start (t : Tid)
  | exit (c : Tid) (endsTask : Bool)
  | publish (c : Tid) (cap : Nat) (servedBy : Option TaskId) (windowHeld : Bool) (admitted : Option TaskId → Bool)
  | send (acc : Access) (c : Tid) (cap buf len : Nat) (readable noWait : Bool) (deadline : Option Nat)
  | call (acc : Access) (c : Tid) (cap buf sendLen recvCap : Nat) (valid : Bool) (deadline : Option Nat)
  | recv (acc : Access) (c : Tid) (cap buf capLen badgeOut : Nat) (deadline : Option Nat)

def Op.run (s : Kernel) : Op → Kernel × Answer
  | .create c admitted => s.endpointCreate c admitted
  | .badge c srcCap value => s.endpointBadge c srcCap value
  | .narrow c cap mask => s.capNarrow c cap mask
  | .narrowAuthority c mask => s.capNarrowAuthority c mask
  | .close c cap => s.handleClose c cap
  | .spawn c child k prio width authority grants chunks driver admitted grantsAdmitted =>
    s.spawn c child k prio width authority grants chunks driver admitted grantsAdmitted
  | .start t => (s.threadAdd t, .ok 0)
  | .exit c endsTask => (s.exitCurrent c endsTask, .ok 0)
  | .publish c cap servedBy windowHeld admitted => s.publish c cap servedBy windowHeld admitted
  | .send acc c cap buf len readable noWait d => ((s.endpointSend acc c cap buf len readable noWait d).1, .ok 0)
  | .call acc c cap buf sendLen recvCap valid d => ((s.endpointCall acc c cap buf sendLen recvCap valid d).1, .ok 0)
  | .recv acc c cap buf capLen badgeOut d => ((s.endpointRecv acc c cap buf capLen badgeOut d).1, .ok 0)

/-- The endpoint slot an operation claims. -/
def Op.claims (s : Kernel) : Op → Option Eid
  | .create _ true => s.endpoints.claim.map Prod.fst
  | _ => none

/-- The threads of a group behind an operation: a group takes in what its members spawn, and a slot another thread
spawns into is no member any more. -/
def Op.group (s : Kernel) (op : Op) (S : Set Tid) : Set Tid :=
  match op with
  | .spawn c child .. => {t | if (op.run s).2.isOk = true ∧ t = child then c ∈ S else t ∈ S}
  | _ => S

/-- The thread an operation parks with a message, and the endpoint the message waits on. -/
def Op.parks (s : Kernel) : Op → Option (Tid × Eid)
  | .send acc c cap buf len readable noWait d =>
    (s.parksOn c cap (s.endpointSend acc c cap buf len readable noWait d).2).map fun e => (c, e)
  | .call acc c cap buf sendLen recvCap valid d =>
    (s.parksOn c cap (s.endpointCall acc c cap buf sendLen recvCap valid d).2).map fun e => (c, e)
  | _ => none

/-- The threads with a message of the group `S` on `e`, which were `M`, once a thread has parked one: a member that
parks there has one, a thread that parks elsewhere has none. -/
def mailed (e : Eid) (S M : Set Tid) : Option (Tid × Eid) → Set Tid
  | none => M
  | some (c, e') => {t | if t = c then c ∈ S ∧ e' = e else t ∈ M}

/-- The threads with a message of the group on `e` behind an operation; a thread spawned anew has none. -/
def Op.messages (s : Kernel) (op : Op) (e : Eid) (S M : Set Tid) : Set Tid :=
  match op with
  | .spawn _ child .. => {t | t ∈ M ∧ ¬ ((op.run s).2.isOk = true ∧ t = child)}
  | _ => mailed e S M (op.parks s)

structure Sys where
  k : Kernel
  born : Eid → Nat := fun _ => 0

def Sys.step (x : Sys) (op : Op) : Sys where
  k := (op.run x.k).1
  born := fun e => if op.claims x.k = some e then x.born e + 1 else x.born e

/-- Where a run starts: every table has its free list, and no capability a badge. -/
structure Boot (s : Kernel) : Prop where
  free : ∀ t, ∃ q, FreeList (s.thr t).caps q
  /-- The index half of a handle names every slot of the pool. -/
  slots : s.endpoints.count ≤ 2 ^ 16
  unused : s.endpoints.free = []
  plain : ∀ t i x, s.holding t i = some x → x.badge = kcapBadgeNone

/-- A state of some run. -/
inductive Reachable : Sys → Prop where
  | boot (s : Kernel) (h : Boot s) : Reachable { k := s }
  | step (x : Sys) (op : Op) (hx : Reachable x) : Reachable (x.step op)

/-- What follows `x` with endpoint slot `e` never the published console; the group that was `S` at `x` is now `T`, and
the threads with a message of the group on `e`, which were `M`, are now `N`. -/
inductive Later (e : Eid) (x : Sys) (S M : Set Tid) : Sys → Set Tid → Set Tid → Prop where
  | refl (hc : x.k.consoleEndpoint ≠ some e) : Later e x S M x S M
  | step (y : Sys) (T N : Set Tid) (op : Op) (h : Later e x S M y T N) (hc : (y.step op).k.consoleEndpoint ≠ some e) :
      Later e x S M (y.step op) (op.group y.k T) (op.messages y.k e T N)

end Cap
end KickOS
