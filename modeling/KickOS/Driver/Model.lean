import Mathlib.Tactic

/-! The descriptor of a packaged driver, its validator, the layout of the entry thread's capabilities
(`kickos/sys/driver_service.h`) and the bring-up (`user/src/driver_service.cc`).

An array is indexed through `index`, whose answer behind the end is `none`, so a definition that is `some` has kept
every index in bounds. A loop of the source runs over the indices below its bound and stops at its first return. -/

namespace KickOS.Driver

def linesMax : Nat := 2
def threadsMax : Nat := 3
def capsMax : Nat := 3

def resEp : Nat := 0
def resNotify : Nat := 1
def resLine0 : Nat := 2

abbrev Rights := BitVec 8

def capWait : Rights := 1
def capSignal : Rights := 2
def capTransfer : Rights := 4
def capHandout : Rights := 8

def irqEdge : Nat := 0

/-- `a[i]`. -/
def index {α : Type} {n : Nat} (a : Fin n → α) (i : Nat) : Option α := if h : i < n then some (a ⟨i, h⟩) else none

/-- The store `a[i] = v`. -/
def store {α : Type} {n : Nat} (a : Fin n → α) (i : Nat) (v : α) : Option (Fin n → α) :=
  if h : i < n then some (Function.update a ⟨i, h⟩ v) else none

/-- A loop that returns false at the first index whose check fails. -/
def every (check : Nat → Option Bool) : List Nat → Option Bool
  | [] => some true
  | i :: l => do if ← check i then every check l else return false

/-- A loop that returns true at the first index whose check holds. -/
def anyOf (check : Nat → Option Bool) : List Nat → Option Bool
  | [] => some false
  | i :: l => do if ← check i then return true else anyOf check l

/-- A loop that counts the indices whose check holds. -/
def countOf (check : Nat → Option Bool) : List Nat → Option Nat
  | [] => some 0
  | i :: l => do
    let here ← check i
    let rest ← countOf check l
    return rest + here.toNat

/-- A loop that returns the first index whose check holds, or `past`. -/
def firstOf (check : Nat → Option Bool) (past : Nat) : List Nat → Option Nat
  | [] => some past
  | i :: l => do if ← check i then return i else firstOf check past l

structure Cap where
  resource : Nat
  rights : Rights
  badge : Nat

inductive Arg where
  | none
  | block
  | window
  | line0Index
  deriving DecidableEq

/-- A pointer is kept as whether it is set. -/
structure Thread where
  entry : Bool
  arg : Arg
  windowGrant : Bool
  capCount : Nat
  caps : Fin capsMax → Cap

inductive Posture where
  | handover
  | retain
  deriving DecidableEq

structure Descriptor where
  tag : Bool
  expectedBase : Nat
  blockSize : Nat
  blockFlags : Nat
  readyOffset : Nat
  epPosture : Posture
  lineCount : Nat
  threadCount : Nat
  barrierAfter : Nat
  /-- The triggers of the lines. -/
  lines : Fin linesMax → Nat
  threads : Fin threadsMax → Thread
  blockInit : Bool
  launch : Bool

def readyNone : Nat := 0xFFFF

def doorbellBadge (lineCount : Nat) : Nat := (lineCount + 1) % 256

def badgeBit (badge : Nat) : Nat := if badge = 0 then 0 else (badge - 1) % 256

/-- Whether capability `i` of the thread is the resource with every one of the rights. -/
def holdsAt (t : Thread) (resource : Nat) (rights : Rights) (i : Nat) : Option Bool := do
  let c ← index t.caps i
  return c.resource = resource && c.rights &&& rights = rights

def holds (t : Thread) (resource : Nat) (rights : Rights) : Option Bool := anyOf (holdsAt t resource rights)
    (List.range t.capCount)

namespace Descriptor

variable (d : Descriptor)

def threadHolds (resource : Nat) (rights : Rights) (i : Nat) : Option Bool := do holds (← index d.threads i) resource rights

/-- The loops over the threads that ask for a right on a resource: the index of the first, and how many there are. -/
def holder (resource : Nat) (rights : Rights) : Option Nat := firstOf (d.threadHolds resource rights) d.threadCount
    (List.range d.threadCount)

def holderCount (resource : Nat) (rights : Rights) : Option Nat := countOf (d.threadHolds resource rights)
    (List.range d.threadCount)

def epHolder : Option Nat := d.holder resEp capWait

def epHolderCount : Option Nat := d.holderCount resEp capWait

def notifyHolderCount (rights : Rights) : Option Nat := d.holderCount resNotify rights

def notifyWaiter : Option Nat := d.holder resNotify capWait

def lineWaiterCount (l : Nat) : Option Nat := d.holderCount (resLine0 + l) capWait

def windowHolderCount : Option Nat := countOf (fun i => do return (← index d.threads i).windowGrant) (List.range d.threadCount)

/-- The loop over the capabilities of every thread. -/
def everyCap (check : Thread → Cap → Option Bool) : Option Bool :=
  every (fun i => do
    let t ← index d.threads i
    every (fun j => do check t (← index t.caps j)) (List.range t.capCount)) (List.range d.threadCount)

def validL1 : Bool := d.threadCount ≤ threadsMax && d.lineCount ≤ linesMax

/-- The check of one thread, whose count of capabilities comes first. -/
def validL2At (i : Nat) : Option Bool := do
  let t ← index d.threads i
  if capsMax < t.capCount then return false
  else if t.arg = .line0Index ∧ d.lineCount = 0 then return false
  else
    every (fun j => do
      let c ← index t.caps j
      return !(resLine0 + d.lineCount ≤ c.resource) && !(c.rights = 0) && !(c.resource ≠ resNotify && c.badge ≠ 0))
        (List.range t.capCount)

def validL2 : Option Bool := every d.validL2At (List.range d.threadCount)

def validL3 : Option Bool := do
  if 1 < (← d.windowHolderCount) then return false
  else if ← every (fun i => do return !(← index d.threads i).windowGrant) ((List.range d.threadCount).drop 1) then
    every (fun i => do
      let t ← index d.threads i
      return !(t.arg = .window && !t.windowGrant)) (List.range d.threadCount)
  else return false

def validL4 : Option Bool := do
  let readers ← countOf (fun i => do return (← index d.threads i).arg = .block) (List.range d.threadCount)
  let reader := readers ≠ 0
  return !(reader && d.blockSize = 0) && !(d.blockSize ≠ 0 && !reader) && !(d.blockSize = 0 && d.blockFlags ≠ 0) &&
    ((d.blockSize = 0) = (d.blockInit = false))

def validL5 : Option Bool :=
  d.everyCap fun t c =>
    if t.windowGrant then return true
    else if c.resource = resEp ∨ c.resource = resNotify then return true
    else if c.rights &&& capWait = 0 then return true
    else do return (← index d.lines (c.resource - resLine0)) = irqEdge

def validL6 : Option Bool := do return (← d.epHolderCount) = 1

def validL7 : Bool := d.epPosture ≠ .handover || d.threadCount = 1 || d.readyOffset ≠ readyNone

def validL8 : Option Bool :=
  if (d.readyOffset = readyNone) ≠ (d.launch = false) then return false
  else if d.readyOffset = readyNone then return true
  else if d.blockSize = 0 ∨ d.blockSize < d.readyOffset + 4 then return false
  else if d.readyOffset % 4 ≠ 0 then return false
  else if d.barrierAfter < 1 ∨ d.threadCount ≤ d.barrierAfter then return false
  else if d.epPosture ≠ .handover then return true
  else do return d.barrierAfter ≤ (← d.epHolder)

def validL10 : Bool := d.tag

def validL12 : Option Bool := every (fun l => do return (← d.lineWaiterCount l) = 1) (List.range d.lineCount)

/-- The badges seen so far are the bits of a word. -/
def badgesOf (t : Thread) : List Nat → BitVec 32 → Option (Option (BitVec 32))
  | [], seen => some (some seen)
  | j :: l, seen => do
    let c ← index t.caps j
    if c.resource ≠ resNotify ∨ c.badge = 0 then badgesOf t l seen
    else if badgeBit c.badge < d.lineCount ∨ 32 ≤ badgeBit c.badge then return none
    else if seen &&& (1 <<< badgeBit c.badge) ≠ 0 then return none
    else badgesOf t l (seen ||| (1 <<< badgeBit c.badge))

def badges : List Nat → BitVec 32 → Option Bool
  | [], _ => some true
  | i :: l, seen => do
    let t ← index d.threads i
    match ← d.badgesOf t (List.range t.capCount) seen with
    | none => return false
    | some seen => badges l seen

def validL13 : Option Bool := do
  let waiters ← d.notifyHolderCount capWait
  if d.lineCount ≠ 0 ∧ waiters ≠ 1 then return false
  else if 1 < waiters then return false
  else
    let w ← d.notifyWaiter
    if ← every (fun l => do holds (← index d.threads w) (resLine0 + l) capWait) (List.range d.lineCount) then
      d.badges (List.range d.threadCount) 0
    else return false

end Descriptor

/-- The tokens: the endpoint, the unbadged notification, its doorbell copy, and from `tokLine0` on the lines. -/
def tokEp : Nat := 0
def tokNotify : Nat := 1
def tokDoorbell : Nat := 2
def tokLine0 : Nat := 3
def tokCount : Nat := tokLine0 + linesMax
def tokNone : Nat := 0xFF

def tokenOf (c : Cap) : Nat :=
  if c.resource = resNotify ∧ c.badge ≠ 0 then tokDoorbell
  else if resLine0 ≤ c.resource then (tokLine0 + (c.resource - resLine0)) % 256
  else c.resource

/-- `Layout`: the place of each token. -/
structure Layout where
  place : Fin tokCount → Nat := fun _ => tokNone
  count : Nat := 0

def Layout.put (l : Layout) (tok : Nat) : Option Layout := do
  return { place := ← store l.place tok l.count, count := l.count + 1 }

/-- The loop over the capabilities of thread 0. -/
def placeCaps (t : Thread) : List Nat → Layout → Option Layout
  | [], l => some l
  | j :: js, l => do placeCaps t js (← l.put (tokenOf (← index t.caps j)))

namespace Descriptor

variable (d : Descriptor)

def tokenHeld (tok : Nat) : Option Bool :=
  if tok = tokEp then return true
  else if tokLine0 ≤ tok then return tok < tokLine0 + d.lineCount
  else anyOf (fun i => do
    let t ← index d.threads i
    anyOf (fun j => do return tokenOf (← index t.caps j) = tok) (List.range t.capCount)) (List.range d.threadCount)

/-- The loop over the tokens, which places those held that have no place. -/
def placeRest : List Nat → Layout → Option Layout
  | [], l => some l
  | t :: ts, l => do
    if (← index l.place t) = tokNone then
      if ← d.tokenHeld t then placeRest ts (← l.put t) else placeRest ts l
    else placeRest ts l

def layoutOf : Option Layout := do
  let l ← if d.threadCount ≠ 0 then (do
      let t ← index d.threads 0
      placeCaps t (List.range t.capCount) {})
    else some {}
  d.placeRest (List.range tokCount) l

def validL14 : Option Bool :=
  if d.threadCount = 0 then return true
  else do
    let t ← index d.threads 0
    if ← every (fun j => every (fun k => do return tokenOf (← index t.caps j) ≠ tokenOf (← index t.caps k)) (List.range j))
        (List.range t.capCount) then
      d.everyCap fun _ c => return !(tokenOf c = tokDoorbell && c.badge ≠ doorbellBadge d.lineCount)
    else return false

/-- `and`, which does not look at its second leg when the first is false. -/
def leg (first : Option Bool) (second : Unit → Option Bool) : Option Bool := do if ← first then second () else return false

/-- The legs in the order of the source. -/
def valid : Option Bool :=
  leg (some d.validL1) fun _ => leg d.validL2 fun _ => leg d.validL3 fun _ => leg d.validL4 fun _ => leg d.validL5 fun _ =>
    leg d.validL6 fun _ => leg (some d.validL7) fun _ => leg d.validL8 fun _ => leg (some d.validL10) fun _ =>
      leg d.validL12 fun _ =>
      leg d.validL13 fun _ => d.validL14

end Descriptor

/-- The parts of an instance the bring-up reads beside the arguments of the threads. -/
structure Instance where
  mmioBase : Nat
  block : Bool
  blockSize : Nat
  blockFlags : Nat
  console : Bool
  lineCount : Nat
  /-- Inside another task, the capability at each place of the layout. -/
  hosted : Option (List Nat)

structure Grant where
  sourceCap : Nat
  rightsMask : Rights

/-- The capability at a place of the layout. -/
def sourceOf (cap0 : Nat) (hosted : Option (List Nat)) (place : Nat) : Option Nat :=
  match hosted with
  | none => some (cap0 + place)
  | some caps => caps[place]?

/-- The grant of one capability of a spawned thread, from the entry thread's place of its token. -/
def grantOf (cap0 : Nat) (l : Layout) (hosted : Option (List Nat)) (c : Cap) : Option Grant := do
  let place ← index l.place (tokenOf c)
  return ⟨← sourceOf cap0 hosted place, c.rights⟩

/-- The grants of `spawn`. -/
def grantsOf (cap0 : Nat) (l : Layout) (hosted : Option (List Nat)) (t : Thread) : List Nat → Option (List Grant)
  | [] => some []
  | j :: js => do
    let g ← grantOf cap0 l hosted (← index t.caps j)
    return g :: (← grantsOf cap0 l hosted t js)

/-- The calls of a bring-up into the kernel. -/
inductive Call where
  | spawn (i : Nat) (grants : List Grant)
  | narrow (cap : Nat) (mask : Rights)
  | close (cap : Nat)

/-- How a bring-up ends: with a diagnostic and nothing spawned, in a trap, back in the host, or in the body of thread 0. -/
inductive Ended where
  | refused (msg : String)
  | trapped (msg : String)
  | hosted
  | body

/-- What the kernel and the driver answer: each spawn, the block's initialisation, the wait for the service, and the
priority of thread 0. -/
structure Answers where
  spawned : Nat → Bool
  blockInit : Bool
  served : Bool
  prioritised : Bool

namespace Descriptor

variable (d : Descriptor)

/-- `instance_admits`, with the diagnostic of a refusal. -/
def instanceAdmits (x : Instance) : Option String :=
  if d.expectedBase ≠ 0 ∧ x.mmioBase ≠ d.expectedBase then some "ERROR: the instance's window is not this driver's block\n"
  else if x.blockSize ≠ d.blockSize ∨ (d.blockSize ≠ 0 ∧ x.block = false) ∨ x.blockFlags ≠ d.blockFlags then
    some "ERROR: the instance's ring block is not this driver's\n"
  else if x.console ≠ (d.epPosture = .handover) then some "ERROR: the table and the descriptor disagree on the console\n"
  else if x.lineCount ≠ d.lineCount then some "ERROR: the table's lines are not as many as this driver's roles\n"
  else none

/-- The loop that spawns the threads: the calls it makes, and how it ends where a spawn fails. A thread behind the
barrier is given a launch record. -/
def spawnAll (cap0 : Nat) (x : Instance) (a : Answers) (l : Layout) : List Nat → Option (List Call × Option Ended)
  | [] => some ([], none)
  | i :: is => do
    let t ← index d.threads i
    if d.readyOffset ≠ readyNone ∧ d.barrierAfter ≤ i then
      let _ ← index (fun _ : Fin threadsMax => ()) i
    let grants ← grantsOf cap0 l x.hosted t (List.range t.capCount)
    if a.spawned i then
      let rest ← spawnAll cap0 x a l is
      return (.spawn i grants :: rest.1, rest.2)
    else if i = 0 then return ([.spawn i grants], some (.refused "ERROR: driver thread spawn failed\n"))
    else return ([.spawn i grants], some (.trapped "ERROR: driver thread spawn failed\n"))

/-- The narrowing of thread 0's own capabilities. -/
def narrowAll (cap0 : Nat) (t : Thread) : List Nat → Option (List Call)
  | [] => some []
  | j :: js => do
    let c ← index t.caps j
    return .narrow (cap0 + j) c.rights :: (← narrowAll cap0 t js)

def closeAll (cap0 : Nat) (t : Thread) (l : Layout) : List Call := ((List.range l.count).drop t.capCount).map fun j =>
    .close (cap0 + j)

/-- The bring-up behind its checks, with the layout: it spawns the threads, and of a driver in its own task it goes on
as thread 0. -/
def launchAll (cap0 : Nat) (x : Instance) (a : Answers) (l : Layout) : Option (List Call × Ended) := do
  let first := if x.hosted.isSome then 0 else 1
  let (spawns, failed) ← d.spawnAll cap0 x a l ((List.range d.threadCount).drop first)
  match failed with
  | some ended => return (spawns, ended)
  | none =>
    if x.hosted.isSome then
      if d.readyOffset ≠ readyNone ∧ a.served = false then
        return (spawns, .trapped "ERROR: the driver's service never reached its first receive\n")
      else return (spawns, .hosted)
    else
      let t0 ← index d.threads 0
      let narrows ← narrowAll cap0 t0 (List.range t0.capCount)
      let calls := spawns ++ (narrows ++ closeAll cap0 t0 l)
      if a.prioritised then return (calls, .body)
      else return (calls, .trapped "ERROR: thread 0 could not take its priority\n")

/-- `bring_up`: the calls it makes, and how it ends. -/
def bringUp (cap0 : Nat) (x : Instance) (a : Answers) : Option (List Call × Ended) := do
  if (← d.valid) = false then return ([], .refused "ERROR: the descriptor is not a well-formed driver shape\n")
  else if (← every (fun i => do return (← index d.threads i).entry) (List.range d.threadCount)) = false then
    return ([], .refused "ERROR: a thread in the descriptor has no entry\n")
  else
    match d.instanceAdmits x with
    | some msg => return ([], .refused msg)
    | none =>
      if d.blockSize ≠ 0 ∧ a.blockInit = false then return ([], .refused "ERROR: block_init refused the instance\n")
      else d.launchAll cap0 x a (← d.layoutOf)

end Descriptor

/-- What a capability names. -/
inductive Object where
  | endpoint
  | notification
  | doorbell (bit : Nat)
  | line (k : Nat)
  deriving DecidableEq

/-- What a capability of a descriptor names. -/
def objectOf (c : Cap) : Object :=
  if c.resource = resEp then .endpoint
  else if c.resource = resNotify then if c.badge = 0 then .notification else .doorbell (badgeBit c.badge)
  else .line (c.resource - resLine0)

/-- What the init makes of a token: the doorbell is minted on the first bit above the lines. -/
def tokenObject (lineCount tok : Nat) : Object :=
  if tok = tokEp then .endpoint
  else if tok = tokNotify then .notification
  else if tok = tokDoorbell then .doorbell lineCount
  else .line (tok - tokLine0)

/-- An entry of a capability table. -/
structure Held where
  object : Object
  rights : Rights

/-- A thread's capabilities by their handle. -/
abbrev Table := Nat → Option Held

/-- A grant at a spawn: the source is live and may be delegated, and the copy is no wider, but for the handout right of
an endpoint. -/
def Table.seat (T : Table) (g : Grant) : Option Held := do
  let e ← T g.sourceCap
  let grantable := if e.object = .endpoint ∧ e.rights &&& capHandout ≠ 0 then e.rights ||| capWait else e.rights
  if e.rights &&& capTransfer = 0 then none
  else if grantable &&& g.rightsMask ≠ g.rightsMask then none
  else return { e with rights := g.rightsMask }

/-- The capabilities of a spawned thread, from the first delegated one on. -/
def Table.delegate (T : Table) : List Grant → Option (List Held)
  | [] => some []
  | g :: gs => do return (← T.seat g) :: (← T.delegate gs)

/-- What a call leaves of the caller's table: a narrow or a close of an index below the first delegated one is refused. -/
def Table.after (cap0 : Nat) (T : Table) : Call → Table
  | .spawn .. => T
  | .narrow cap mask =>
    match T cap with
    | none => T
    | some e => if cap < cap0 then T else Function.update T cap (some { e with rights := e.rights &&& mask })
  | .close cap => if cap < cap0 then T else Function.update T cap none

end KickOS.Driver
