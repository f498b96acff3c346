import KickOS.Kernel.Task

/-! What a task holds of the budgeted pools, derived from its members' tables (`kernel/syscall/cap.cc`).

A derivation counts a slot the first time it reaches it: the slot then carries the epoch of the derivation as its mark.
The build is one kernel core, where no binding retires. -/

namespace KickOS
namespace Hold

/-- `HeldPool`. -/
inductive Held where
  | endpoint | irq | notify
  deriving DecidableEq, Repr

/-- `HELD_POOLS`, in order. -/
def Held.pools : List Held := [.endpoint, .irq, .notify]

/-- `held_of`. -/
def heldOf : CapType → Option Held
  | .endpoint => some .endpoint
  | .irq => some .irq
  | .notify => some .notify
  | _ => none

/-- What a derivation reads. -/
structure Objects where
  k : Kernel
  irqs : Pool
  /-- `IrqBinding::notify`, as the slot it points at. -/
  irqNotify : Nat → Option Nat
  /-- `task_members`, in the order of the list. -/
  members : TaskId → List Tid
  /-- `task_budget` of each held kind. -/
  budget : TaskId → Held → Nat
  /-- A binding has a reference of its own on the notification it signals. -/
  attached : ∀ b n, irqs.Live b → irqNotify b = some n → n < k.notifies.count ∧ k.notifies.Live n

namespace Objects
variable (o : Objects)

def pool : Held → Pool
  | .endpoint => o.k.endpoints
  | .irq => o.irqs
  | .notify => o.k.notifies

/-- `cap_obj`, with the interrupt bindings. -/
def capObj (e : CapEntry) : Option Nat :=
  if e.type = .irq then (if o.irqs.generation e.obj = e.objGen then some e.obj else none) else o.k.capObj e

/-- `held_live_index`. -/
def heldLiveIndex (h : Held) (handle : Nat) : Option Nat := (o.pool h).liveIndex handle

/-- `binding_notify_slot`. -/
def bindingNotifySlot (handle : Nat) : Option Nat := (o.irqs.liveIndex handle).bind o.irqNotify

/-- The slots `stage_object` stages for an object, a missing one as `none`. -/
def objectSlots (type : CapType) (handle : Option Nat) : List (Held × Option Nat) :=
  match heldOf type with
  | none => []
  | some .irq => [(.irq, handle.bind (o.heldLiveIndex .irq)), (.notify, handle.bind o.bindingNotifySlot)]
  | some h => [(h, handle.bind (o.heldLiveIndex h))]

/-- What one entry of a member's table stages; a standard output seat that names `unseated` stages nothing. -/
def entrySlots (th : Tid) (unseated : Option Nat) (e : Nat) : List (Held × Option Nat) :=
  let entry := (o.k.thr th).caps.slots e
  if e = 0 ∧ entry.type = .endpoint ∧ o.capObj entry = unseated then [] else o.objectSlots entry.type (o.capObj entry)

/-- What one member stages: its binding, then its table. -/
def memberSlots (unseated : Option Nat) (th : Tid) : List (Held × Option Nat) :=
  (match (o.k.thr th).notifyBound with
    | none => []
    | some handle => o.objectSlots .notify (some handle)) ++
  (List.range (o.k.thr th).caps.width).flatMap (o.entrySlots th unseated)

/-- The slots `task_object_holds` stages, in its order. -/
def taskSlots (t : TaskId) (unseated : Option Nat) : List (Held × Option Nat) :=
  (o.members t).flatMap (o.memberSlots unseated)

end Objects

/-! ### The marks -/

structure Marks where
  /-- `hold_epoch`, 16 bits. -/
  epoch : Nat := 0
  /-- `hold_sweep`, 16 bits. -/
  sweep : Nat := 0
  mark : Held → Nat → Nat := fun _ _ => 0

def Marks.set (m : Marks) (h : Held) (i v : Nat) : Marks :=
  { m with mark := Function.update m.mark h (Function.update (m.mark h) i v) }

/-- The new epoch of `hold_epoch_begin`. -/
def epochNext (e : Nat) : Nat := if (e + 1) % 2 ^ 16 = 0 then 1 else (e + 1) % 2 ^ 16

/-- One round of the loop of `hold_epoch_begin`: the slot `at` of a pool of `count` loses its mark. -/
def sweepPool (count : Held → Nat) (slot : Nat) (m : Marks) (h : Held) : Marks :=
  if slot < count h ∧ m.mark h slot ≠ m.epoch then m.set h slot 0 else m

/-- `hold_epoch_begin`. -/
def holdEpochBegin (count : Held → Nat) (m : Marks) : Marks :=
  let slot := m.sweep
  let m := Held.pools.foldl (sweepPool count slot) { m with epoch := epochNext m.epoch }
  { m with sweep := if Held.pools.any fun h => slot + 1 < count h then (slot + 1) % 2 ^ 16 else 0 }

/-- A derivation in progress: the marks, and `TaskObjectHolds`. -/
structure Staging where
  marks : Marks
  count : Held → Nat := fun _ => 0
  budget : Held → Nat

/-- `stage_hold`. -/
def stageHold (g : Staging) (e : Held × Option Nat) : Staging × Bool :=
  match e.2 with
  | none => (g, true)
  | some i =>
    if g.marks.mark e.1 i = g.marks.epoch then (g, true)
    else if g.budget e.1 ≤ g.count e.1 then (g, false)
    else ({ g with
      marks := g.marks.set e.1 i g.marks.epoch
      count := Function.update g.count e.1 (g.count e.1 + 1) }, true)

/-- Stage one slot behind another, whatever the first one answered. -/
def stageAll : Staging → List (Held × Option Nat) → Staging × Bool
  | g, [] => (g, true)
  | g, e :: l =>
    let (g, first) := stageHold g e
    let (g, rest) := stageAll g l
    (g, rest && first)

/-! ### The derivations -/

structure Sys where
  o : Objects
  marks : Marks := {}

def Sys.count (x : Sys) (h : Held) : Nat := (x.o.pool h).count

/-- `holds_begin`, `hold_epoch_begin` and `task_object_holds`. -/
def Sys.derive (x : Sys) (t : TaskId) (unseated : Option Nat) : Staging :=
  (stageAll { marks := holdEpochBegin x.count x.marks, budget := x.o.budget t } (x.o.taskSlots t unseated)).1

/-- `task_object_usage` of a held kind. -/
def Sys.taskObjectUsage (x : Sys) (t : Option TaskId) (kind : Held) : Sys × Nat :=
  match t with
  | none => (x, 0)
  | some t => ({ x with marks := (x.derive t none).marks }, (x.derive t none).count kind)

/-- The loop over the grants; the first refusal ends it. -/
def stageGrants (o : Objects) : Staging → List (CapType × Nat) → Staging × Bool
  | g, [] => (g, true)
  | g, (type, obj) :: l =>
    match stageAll g (o.objectSlots type (some obj)) with
    | (g, false) => (g, false)
    | (g, true) => stageGrants o g l

/-- `task_object_admit_grants`. -/
def Sys.taskObjectAdmitGrants (x : Sys) (t : Option TaskId) (grants : List (CapType × Nat)) : Sys × Bool :=
  let seat := x.o.k.stdoutSeatFor t
  match t with
  | none => (x, true)
  | some t =>
    if grants = [] ∧ seat = none then (x, true)
    else
      let g := x.derive t none
      let (g, seated) := match seat with
        | none => (g, true)
        | some obj => stageHold g (.endpoint, x.o.heldLiveIndex .endpoint obj)
      if seated = false then ({ x with marks := g.marks }, false)
      else
        let (g, ok) := stageGrants x.o g grants
        ({ x with marks := g.marks }, ok)

/-- `admit_stdout_swap`. -/
def Sys.admitStdoutSwap (x : Sys) (t : Option TaskId) (was seat : Nat) : Sys × Bool :=
  match t with
  | none => (x, true)
  | some t =>
    let (g, ok) := stageHold (x.derive t (some was)) (.endpoint, x.o.heldLiveIndex .endpoint seat)
    ({ x with marks := g.marks }, ok)

/-- One round of the loop of `task_object_admit_binding_notify`. -/
def Sys.bindingNotifyRound (x : Sys) (bindingSlot notifySlot : Nat) (t : TaskId) : Sys × Bool :=
  if x.o.members t = [] then (x, true)
  else
    let g := x.derive t none
    if g.marks.mark .irq bindingSlot ≠ g.marks.epoch then ({ x with marks := g.marks }, true)
    else
      let (g, ok) := stageHold g (.notify, some notifySlot)
      ({ x with marks := g.marks }, ok)

/-- Every derivation of the kernel, in any order, with anything else between two of them; the pools keep their widths. -/
inductive Step : Sys → Sys → Prop where
  | world (x : Sys) (o : Objects) (hw : ∀ h, (o.pool h).count = (x.o.pool h).count) : Step x { x with o := o }
  | usage (x : Sys) (t : Option TaskId) (kind : Held) : Step x (x.taskObjectUsage t kind).1
  | grants (x : Sys) (t : Option TaskId) (grants : List (CapType × Nat)) : Step x (x.taskObjectAdmitGrants t grants).1
  | swap (x : Sys) (t : Option TaskId) (was seat : Nat) : Step x (x.admitStdoutSwap t was seat).1
  | binding (x : Sys) (bindingSlot notifyHandle n : Nat) (t : TaskId) (hn : x.o.heldLiveIndex .notify notifyHandle = some n) :
      Step x (x.bindingNotifyRound bindingSlot n t).1

/-- A run from the boot, with each held pool of at most 65534 slots. -/
inductive Reachable : Sys → Prop where
  | boot (o : Objects) (hw : ∀ h, (o.pool h).count ≤ 65534) : Reachable { o := o }
  | step (x y : Sys) (hx : Reachable x) (h : Step x y) : Reachable y

end Hold
end KickOS
