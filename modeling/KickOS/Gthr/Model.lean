import Mathlib.Tactic

/-! The thread records of the C++ runtime (`user/src/gthr.cc`).

`__kickos_gthr_create` allocates a `Run`, starts the thread on it and then enters it in the registry, under the registry
lock. A joiner takes it off the registry and frees it once the thread is gone; a detach moves it to the detached list,
where the thread frees it on return, and a create frees what the dead threads of its slot left there.

Threads are serials, each with the kernel slot and the generation it was started under; a slot is taken again once its
thread is gone. A step is one access to the lists under the lock, one operation on a state word, a kernel call, or a
free. A thread may be delayed before any of its steps and may die before any of them. A lock whose holder has died is not
taken again: `take` ends the task. -/

namespace KickOS
namespace Gthr
open Function (update)

/-- A `kos_thread_t`: the slot index and the generation. -/
structure Handle where
  slot : Nat
  gen : Nat
  deriving DecidableEq, Repr

/-- `RUN_LIVE`, `RUN_RETURNED`, `RUN_DETACHED`. -/
inductive RunState where
  | live | returned | detached
  deriving DecidableEq, Repr

/-- `Run`, less the function and its values; `next` is the lists', and `KOS_THREAD_NONE` is no handle. -/
structure Run where
  handle : Option Handle
  state : RunState
  deriving DecidableEq, Repr

/-- Where a thread is: in its function, in a call of it, or in `run_entry` past the function. -/
inductive Pc where
  | user
  /-- `__kickos_gthr_create`: `kos_thread_create` is next. -/
  | create (r : Nat)
  | started (r : Nat) (h : Handle)
  | registering (r : Nat) (h : Handle)
  /-- `__kickos_gthr_join`: the registry lock is next. -/
  | joining (h : Handle)
  | claiming (h : Handle)
  | claimed (r : Nat)
  /-- `kos_thread_join`. -/
  | waiting (r : Nat)
  /-- `__kickos_gthr_detach`: the registry lock is next. -/
  | detaching (h : Handle)
  | unlinking (h : Handle)
  | unlinked (r : Nat)
  /-- The state is `RUN_DETACHED`; the push is next. -/
  | swapped (r : Nat)
  /-- `run_entry`: the function's value is stored; the state word is next. -/
  | returned
  | orphaned
  | removing
  /-- The unlock is next, then the frees; `ends` in `run_entry`. -/
  | unlocking (rs : List Nat) (ends : Bool)
  | freeing (rs : List Nat) (ends : Bool)
  | exit
  deriving DecidableEq, Repr

/-- The records that are a thread's alone: allocated and not registered, or taken off a list. -/
def Pc.held : Pc → List Nat
  | .create r | .started r _ | .registering r _ | .claimed r | .waiting r | .unlinked r | .swapped r => [r]
  | .unlocking rs _ | .freeing rs _ => rs
  | _ => []

structure St where
  /-- The generation each slot was last started under. -/
  gens : Nat → Nat
  alive : Nat → Bool
  /-- The handle of a thread. -/
  self : Nat → Handle
  /-- The record `run_entry` was given. -/
  record : Nat → Option Nat
  pc : Nat → Pc
  nextThread : Nat
  runs : Nat → Run
  nextRun : Nat
  /-- The holder of `s_runs_lock`. -/
  lock : Option Nat
  /-- `s_runs`. -/
  registry : List Nat
  /-- `s_detached`. -/
  detached : List Nat
  /-- The records freed, the last first. -/
  freed : List Nat

inductive Act where
  /-- A thread of no record takes a slot. -/
  | spawn (slot : Nat)
  /-- `__kickos_gthr_create` is called and its record allocated. -/
  | alloc (t : Nat)
  | start (t slot : Nat)
  /-- `kos_thread_create` fails. -/
  | refuse (t : Nat)
  /-- `__kickos_gthr_join` is called. -/
  | join (t : Nat) (h : Handle)
  /-- `__kickos_gthr_detach` is called. -/
  | detach (t : Nat) (h : Handle)
  | take (t : Nat)
  /-- The body of a create under the lock. -/
  | register (t : Nat)
  /-- `claim`. -/
  | claim (t : Nat)
  /-- `kos_thread_join` returns. -/
  | joined (t : Nat)
  | unlink (t : Nat)
  /-- The compare-and-swap of a detach. -/
  | swap (t : Nat)
  | push (t : Nat)
  /-- The thread's function returns. -/
  | ret (t : Nat)
  /-- The compare-and-swap of `run_entry`. -/
  | leave (t : Nat)
  /-- `run_entry` takes its record off the detached list. -/
  | remove (t : Nat)
  | unlock (t : Nat)
  | free (t : Nat)
  /-- The thread is gone, from `kos_exit` or by any other path. -/
  | die (t : Nat)
  deriving DecidableEq, Repr

def Act.thread : Act → Option Nat
  | .spawn _ => none
  | .alloc t | .start t _ | .refuse t | .join t _ | .detach t _ | .take t | .register t | .claim t | .joined t
  | .unlink t | .swap t | .push t | .ret t | .leave t | .remove t | .unlock t | .free t | .die t => some t

namespace St

variable (gens : Nat) (s : St)

def setPc (t : Nat) (p : Pc) : St := { s with pc := update s.pc t p }

def vacant (slot : Nat) : Bool := (List.range s.nextThread).all fun t => !(s.alive t && decide ((s.self t).slot = slot))

/-- A thread is started in a slot, under its next generation. -/
def seat (slot : Nat) (r : Option Nat) : St :=
  let g := (s.gens slot + 1) % gens
  { s with
    gens := update s.gens slot g
    alive := update s.alive s.nextThread true
    self := update s.self s.nextThread ⟨slot, g⟩
    record := update s.record s.nextThread r
    pc := update s.pc s.nextThread .user
    nextThread := s.nextThread + 1 }

/-- The first record of the registry with the handle. -/
def find (h : Handle) : Option Nat := s.registry.find? fun r => (s.runs r).handle = some h

/-- The handle still names a thread, which a join waits for. -/
def names (h : Option Handle) : Bool :=
  (List.range s.nextThread).any fun t => s.alive t && decide (some (s.self t) = h)

/-- The records of the detached list whose slot the handle has. -/
def gone (h : Handle) : List Nat := s.detached.filter fun d => (s.runs d).handle.map Handle.slot = some h.slot

def staying (h : Handle) : List Nat := s.detached.filter fun d => (s.runs d).handle.map Handle.slot ≠ some h.slot

/-- A thread takes the lock where it asks for it. -/
def takes : Pc → Option Pc
  | .started r h => some (.registering r h)
  | .joining h => some (.claiming h)
  | .detaching h => some (.unlinking h)
  | .orphaned => some .removing
  | _ => none

def go : Act → Option St
  | .spawn _ | .die _ => none
  | .alloc t =>
    match s.pc t with
    | .user =>
      some { s.setPc t (.create s.nextRun) with
        runs := update s.runs s.nextRun ⟨none, .live⟩
        nextRun := s.nextRun + 1 }
    | _ => none
  | .start t slot =>
    match s.pc t with
    | .create r =>
      if s.vacant slot then
        some ((s.seat gens slot (some r)).setPc t (.started r ⟨slot, (s.gens slot + 1) % gens⟩))
      else none
    | _ => none
  | .refuse t =>
    match s.pc t with
    | .create r => some (s.setPc t (.freeing [r] false))
    | _ => none
  | .join t h =>
    match s.pc t with
    | .user => if h = s.self t then none else some (s.setPc t (.joining h))
    | _ => none
  | .detach t h =>
    match s.pc t with
    | .user => some (s.setPc t (.detaching h))
    | _ => none
  | .take t =>
    if s.lock = none then (takes (s.pc t)).map fun p => { s.setPc t p with lock := some t } else none
  | .register t =>
    match s.pc t with
    | .registering r h =>
      some { s.setPc t (.unlocking (s.gone h).reverse false) with
        runs := update s.runs r { s.runs r with handle := some h }
        registry := r :: s.registry
        detached := s.staying h }
    | _ => none
  | .claim t =>
    match s.pc t with
    | .claiming h =>
      match s.find h with
      | none => some (s.setPc t (.unlocking [] false))
      | some r => some { s.setPc t (.claimed r) with registry := s.registry.erase r }
    | _ => none
  | .joined t =>
    match s.pc t with
    | .waiting r => if s.names (s.runs r).handle then none else some (s.setPc t (.freeing [r] false))
    | _ => none
  | .unlink t =>
    match s.pc t with
    | .unlinking h =>
      match s.find h with
      | none => some (s.setPc t (.unlocking [] false))
      | some r => some { s.setPc t (.unlinked r) with registry := s.registry.erase r }
    | _ => none
  | .swap t =>
    match s.pc t with
    | .unlinked r =>
      if (s.runs r).state = .returned then some (s.setPc t (.unlocking [r] false))
      else
        some { s.setPc t (.swapped r) with
          runs := update s.runs r { s.runs r with state := .detached } }
    | _ => none
  | .push t =>
    match s.pc t with
    | .swapped r => some { s.setPc t (.unlocking [] false) with detached := r :: s.detached }
    | _ => none
  | .ret t =>
    match s.pc t, s.record t with
    | .user, some _ => some (s.setPc t .returned)
    | _, _ => none
  | .leave t =>
    match s.pc t, s.record t with
    | .returned, some r =>
      if (s.runs r).state = .detached then some (s.setPc t .orphaned)
      else
        some { s.setPc t .exit with
          runs := update s.runs r { s.runs r with state := .returned } }
    | _, _ => none
  | .remove t =>
    match s.pc t, s.record t with
    | .removing, some r =>
      some { s.setPc t (.unlocking [r] true) with detached := s.detached.erase r }
    | _, _ => none
  | .unlock t =>
    match s.pc t with
    | .unlocking rs ends => some { s.setPc t (.freeing rs ends) with lock := none }
    | .claimed r => some { s.setPc t (.waiting r) with lock := none }
    | _ => none
  | .free t =>
    match s.pc t with
    | .freeing (r :: rs) ends => some { s.setPc t (.freeing rs ends) with freed := r :: s.freed }
    | .freeing [] ends => some (s.setPc t (if ends then .exit else .user))
    | _ => none

def step (a : Act) : Option St :=
  match a with
  | .spawn slot => if s.vacant slot then some (s.seat gens slot none) else none
  | .die t => if s.alive t then some { s with alive := update s.alive t false } else none
  | a =>
    match a.thread with
    | some t => if s.alive t then s.go gens a else none
    | none => none

/-- The records an act reads or writes, the free of one included. -/
def uses : Act → List Nat
  | .register t => (s.pc t).held ++ s.detached
  | .claim _ | .unlink _ => s.registry
  | .joined t | .swap t | .push t => (s.pc t).held
  | .ret t | .leave t => (s.record t).toList
  | .remove t => (s.record t).toList ++ s.detached
  | .free t => (s.pc t).held.take 1
  | _ => []

/-- One thread, in slot 0, and no record. -/
def start : St :=
  { gens := fun _ => 0
    alive := fun t => decide (t = 0)
    self := fun _ => ⟨0, 0⟩
    record := fun _ => none
    pc := fun _ => .user
    nextThread := 1
    runs := fun _ => ⟨none, .live⟩
    nextRun := 0
    lock := none
    registry := []
    detached := []
    freed := [] }

end St

/-- The condition on a create's registry step: the slot of the handle it was given is not held by a thread that has been
detached. -/
def Clear (s : St) : Act → Prop
  | .register t => ∀ r h, s.pc t = .registering r h → ∀ T d, s.alive T = true → s.record T = some d → d ∈ s.detached →
      (s.self T).slot ≠ h.slot
  | _ => True

inductive Reachable (gens : Nat) : St → Prop
  | start : Reachable gens St.start
  | step {s s' : St} {a : Act} : Reachable gens s → s.step gens a = some s' → Reachable gens s'

/-- The states of the runs in which every create's registry step meets the condition. -/
inductive Cleared (gens : Nat) : St → Prop
  | start : Cleared gens St.start
  | step {s s' : St} {a : Act} : Cleared gens s → Clear s a → s.step gens a = some s' → Cleared gens s'

end Gthr
end KickOS
