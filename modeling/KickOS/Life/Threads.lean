import Mathlib.Tactic
import KickOS.Kernel.State

/-! `ThreadPool` of `thread.h`: the thread slots, their generations and their kill tags.

A slot keeps its index when its occupant changes, and a kill tag is the index plus one. Every `thread_create` draws a
fresh stamp: two occupants of one slot differ in it. -/

namespace KickOS
namespace Life

/-- `KILL_TAG_NONE`. -/
def killTagNone : Nat := 0

/-- `kill_tag_for_index`, a `uint16_t`. -/
def killTagForIndex (i : Nat) : Nat := (i + 1) % 65536

/-- `ROOT_INDEX`. -/
def rootIndex : Nat := 0

structure Tcb where
  state : ThreadState := .inactive
  dying : Bool := false
  spawnerTag : Nat := killTagNone
  /-- The slots on the list of children, the one linked last first. -/
  children : List Nat := []
  task : Option Nat := none
  kstackOwned : Bool := false
  stackBase : Nat := 0
  /-- The task a dying thread left and has not swept yet. -/
  left : Option Nat := none
  /-- The birth of the occupant. -/
  stamp : Nat := 0
  /-- The birth of the thread whose spawn made the occupant. -/
  spawnedBy : Nat := 0

structure ThreadPool where
  count : Nat
  slots : Nat → Tcb := fun _ => {}
  gen : Nat → BitVec 16 := fun _ => 0
  genHi : Nat → BitVec 16 := fun _ => 0
  next : Nat := 0
  /-- The EXITED slots, the one that exited last first. -/
  reclaimable : List Nat := []
  stackFree : List Nat := []
  /-- The tasks a slot's occupant holds, from `ThreadLinks::created_head`. -/
  created : Nat → List Nat := fun _ => []

namespace ThreadPool

def modify (p : ThreadPool) (i : Nat) (f : Tcb → Tcb) : ThreadPool :=
  { p with slots := Function.update p.slots i (f (p.slots i)) }

/-- A tag that names no slot of the pool. -/
def foreign (p : ThreadPool) (tag : Nat) : Bool := tag == killTagNone || decide (p.count < tag)

def childLink (p : ThreadPool) (tag child : Nat) : ThreadPool :=
  if p.foreign tag then p else p.modify (tag - 1) fun t => { t with children := child :: t.children }

def childUnlink (p : ThreadPool) (child : Nat) : ThreadPool :=
  let tag := (p.slots child).spawnerTag
  if p.foreign tag then p else p.modify (tag - 1) fun t => { t with children := t.children.erase child }

def stackPush (p : ThreadPool) (block : Nat) : ThreadPool := { p with stackFree := block :: p.stackFree }

/-- The loop of `reclaim` over the children it pops. -/
def orphan (p : ThreadPool) : List Nat → ThreadPool
  | [] => p
  | n :: rest => orphan (p.modify n fun c => { c with spawnerTag := killTagNone }) rest

def reclaim (p : ThreadPool) (s : Nat) : ThreadPool :=
  let p := if (p.slots s).kstackOwned then
      (p.stackPush (p.slots s).stackBase).modify s fun t => { t with kstackOwned := false }
    else p
  let p := p.childUnlink s
  (p.modify s fun t => { t with children := [] }).orphan (p.slots s).children

def genStep (p : ThreadPool) (i : Nat) : ThreadPool :=
  let g := p.gen i + 1
  { p with gen := Function.update p.gen i g
           genHi := if g = 0 then Function.update p.genHi i (p.genHi i + 1) else p.genHi }

def genUnstep (p : ThreadPool) (i : Nat) : ThreadPool :=
  { p with genHi := if p.gen i = 0 then Function.update p.genHi i (p.genHi i - 1) else p.genHi
           gen := Function.update p.gen i (p.gen i - 1) }

/-- `claim`: the slot that exited last, or a fresh one; none when the pool is full. -/
def claim (p : ThreadPool) : Option Nat × ThreadPool :=
  match p.reclaimable with
  | s :: rest => (some s, (({ p with reclaimable := rest } : ThreadPool).reclaim s).genStep s)
  | [] => if p.count ≤ p.next then (none, p) else (some p.next, { p with next := p.next + 1 })

/-- The undo of a claim whose spawn failed. -/
def release (p : ThreadPool) (i : Nat) : ThreadPool :=
  if (p.slots i).state = .exited then
    let p := p.genUnstep i
    let p := p.childLink (p.slots i).spawnerTag i
    { p with reclaimable := i :: p.reclaimable }
  else if i + 1 = p.next then { p with next := p.next - 1 } else p

def retire (p : ThreadPool) (i : Nat) : ThreadPool :=
  let p := p.modify i fun t => { t with state := .exited }
  if i = rootIndex then p else { p with reclaimable := i :: p.reclaimable }

/-- What `thread_create` does to the slot and to the links of its spawner. -/
def create (p : ThreadPool) (i : Nat) (t : Tcb) : ThreadPool :=
  (p.modify i fun _ => t).childLink t.spawnerTag i

/-- `resolve`, of an index and the generation a handle carries. -/
def resolve (p : ThreadPool) (index : Nat) (gen : BitVec 16) : Option Nat :=
  if index < p.next ∧ p.gen index = gen then some index else none

/-- `caller_spawned`. -/
def callerSpawned (p : ThreadPool) (t c : Nat) : Bool :=
  (p.slots t).spawnerTag != killTagNone && (p.slots t).spawnerTag == killTagForIndex c

/-- `cancel_target`; an idle thread is not in the pool. -/
def cancelTarget (p : ThreadPool) (c index : Nat) (gen : BitVec 16) : Except Errno Nat :=
  match p.resolve index gen with
  | none => .error .ebadf
  | some t =>
    if (p.slots t).state = .exited ∨ (p.slots t).state = .inactive then .error .ebadf
    else if t = c then .error .einval
    else if p.callerSpawned t c then .ok t
    else .error .eperm

end ThreadPool

end Life
end KickOS
