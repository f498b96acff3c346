import KickOS.Kernel.Sched

/-! Word records, mutexes with priority inheritance, reply donors and served endpoints
(`kernel/sync/sync.cc`), and the park unwind (`kernel/thread/park.cc`).

A compare-and-swap of the kernel commits over the value it loaded, while a user fast path on another core may
move the word between the two; so each attempt takes the value loaded as an argument and compares it with the
word as it stands. On one core the two are the same. `ref` is what resolving the user address answered, and
`couldHold` which threads can write the word. -/

namespace KickOS
namespace Kernel

variable (s : Kernel)

/-! ### Reply donors and served endpoints -/

/-- `reply_donor_park`. -/
def replyDonorPark (server caller : Tid) : Kernel :=
  let s := s.onThr server fun x => { x with replyWaiters := caller :: x.replyWaiters }
  s.onThr caller fun x => { x with edge := .epReply server }

/-- `reply_donor_unpark`: membership is tested, not assumed. -/
def replyDonorUnpark (server caller : Tid) : Kernel × Bool :=
  if caller ∈ (s.thr server).replyWaiters then
    let s := s.onThr server fun x => { x with replyWaiters := x.replyWaiters.erase caller }
    (s.clearWaitEdge caller, true)
  else (s, false)

/-- `endpoint_server_clear`. -/
def endpointServerClear (e : Eid) : Kernel :=
  match (s.ep e).server with
  | none => s
  | some prior =>
    if e ∈ (s.thr prior).served then
      let s := s.onThr prior fun x => { x with served := x.served.erase e }
      s.onEp e fun x => { x with server := none }
    else s.assert false

/-! ### The effective priority -/

/-- The priority of the highest thread of a list, no lower than `p`. -/
def maxPrio (p : Nat) (l : List Tid) : Nat := l.foldl (fun p t => max p (s.thr t).prio) p

/-- `thread_effective_prio`: the funnel of every donation. -/
def effectivePrio (t : Tid) : Nat :=
  let x := s.thr t
  let p := x.heldList.foldl (fun p m =>
    match s.wqPeekHighest (s.wrec m).waiters with
    | none => p
    | some w => max p (s.thr w).prio) x.basePrio
  let p := s.maxPrio p (x.replyWaiters.filter fun c => (s.thr c).callState = .replyWait)
  x.served.foldl (fun p e => s.maxPrio p ((s.ep e).sendWaiters.filter fun c => (s.thr c).callState = .sendWait)) p

def recompute (t : Tid) : Kernel := s.setPrio t (s.effectivePrio t)

/-! ### Word records -/

/-- `wait_mutex`. -/
def waitMutex (t : Tid) : Option Rid :=
  match (s.thr t).edge with
  | .mutex m => some m
  | _ => none

def heldPush (owner : Tid) (m : Rid) : Kernel := s.onThr owner fun x => { x with heldList := m :: x.heldList }

def heldRemove (owner : Tid) (m : Rid) : Kernel := s.onThr owner fun x => { x with heldList := x.heldList.erase m }

/-- `transfer_to`. -/
def transferTo (m : Rid) (w : Tid) (status : Answer) : Kernel :=
  let s := s.onRec m fun x => { x with owner := some w }
  let s := s.onThr w fun x => { x with waitResult := status }
  s.heldPush w m

/-- `record_find`: the active record of a word. -/
def recordFind (key : Key) : Option Rid := s.wordActive.find? fun m => (s.wrec m).key = key

/-- `record_take`: the first free record; there is one for every thread. -/
def recordTake (key : Key) (kind : WordKind) (owner : Option Tid) : Kernel × Rid :=
  match (List.range s.count).find? fun m => (s.wrec m).kind = .free with
  | none => (s.assert false, 0)
  | some m =>
    let s := s.onRec m fun _ => { key, kind, owner, waiters := [] }
    let s := { s with wordActive := m :: s.wordActive }
    match owner with
    | some t => if kind = .pi then (s.heldPush t m, m) else (s, m)
    | none => (s, m)

/-- `record_free`. -/
def recordFree (m : Rid) : Kernel :=
  let s := { s with wordActive := s.wordActive.erase m }
  s.onRec m fun x => { x with owner := none, key := 0, kind := .free }

/-- `word_waiter_left`: the last waiter of a record frees it. -/
def wordWaiterLeft (m : Rid) : Kernel :=
  if (s.wrec m).waiters = [] then
    let s := match (s.wrec m).kind, (s.wrec m).owner with
      | .pi, some o => s.heldRemove o m
      | _, _ => s
    s.recordFree m
  else s

def lockIdSlotBits : Nat := 8

/-- `lock_id_pack`: the slot's generation over the slot number, which starts at 1. -/
def lockIdPack (gen slot : Nat) : Nat := gen % 2 ^ (31 - lockIdSlotBits) * 2 ^ lockIdSlotBits + (slot + 1)

/-- `owner_resolve`: the live thread an id names, if it could have written the word. -/
def ownerResolve (id : Nat) (couldHold : Tid → Bool) : Option Tid :=
  let slot := id % 2 ^ lockIdSlotBits
  if slot = 0 ∨ s.count < slot then none
  else
    let x := s.thr (slot - 1)
    if x.state = .exited ∨ x.state = .inactive ∨ x.dying = true ∨ x.lockId ≠ id ∨ couldHold (slot - 1) = false then none
    else some (slot - 1)

/-- What a contended attempt ends in. -/
inductive Attempt where
  | answered (rc : Answer)
  | parked
  | retry
  deriving DecidableEq

/-- Pass 1 of `lock_attempt`: whether the chain of holders from `o` comes back to the caller. -/
def chainMeets (c : Tid) : Nat → Tid → Bool
  | 0, _ => false
  | depth + 1, o =>
    if o = c then true
    else
      match s.waitMutex o with
      | none => false
      | some m =>
        match (s.wrec m).owner with
        | none => false
        | some o => chainMeets c depth o

/-- Pass 2 of `lock_attempt`: raise the holders along the chain, up to the first that is high enough. -/
def raiseChain (p : Nat) : Nat → Kernel → Tid → Kernel
  | 0, s, _ => s
  | depth + 1, s, o =>
    if p ≤ (s.thr o).prio then s
    else
      let s := s.setPrio o p
      match s.waitMutex o with
      | none => s
      | some m =>
        match (s.wrec m).owner with
        | none => s
        | some o => raiseChain p depth s o

/-- `lock_attempt` past the word: the record is taken, the holders are raised and the caller parks. -/
def lockPark (c : Tid) (key : Key) (m : Option Rid) (t : Tid) (deadline : Option Nat) : Kernel :=
  let (s, m) := match m with
    | some m => (s, m)
    | none => s.recordTake key .pi (some t)
  let s := raiseChain (s.thr c).prio (s.count + 1) s t
  let s := s.deadlineArm c deadline
  s.wqBlock c (.record m) (.mutex m)

/-- The limit, the read-only pass and the waiters bit, in front of a park behind holder `t`. -/
def lockCommit (c : Tid) (key : Key) (v : Word) (m : Option Rid) (t : Tid) (passed : Bool) (deadline : Option Nat) :
    Kernel × Attempt :=
  if passed then (s, .answered (.error .etimedout))
  else if s.chainMeets c (s.count + 1) t then (s, .answered (.error .edeadlk))
  else if m.isNone ∧ v.waiters = false then
    if s.words key = v then ((s.setWord key { v with waiters := true }).lockPark c key m t deadline, .parked)
    else (s, .retry)
  else (s.lockPark c key m t deadline, .parked)

/-- `lock_attempt`, the caller not cancelled. -/
def lockAttempt (c : Tid) (ref : Except Errno Key) (couldHold : Tid → Bool) (v : Word) (passed : Bool)
    (deadline : Option Nat) : Kernel × Attempt :=
  match ref with
  | .error e => (s, .answered (.error e))
  | .ok key =>
    match s.recordFind key with
    | some m =>
      if (s.wrec m).kind ≠ .pi then (s, .answered (.error .einval))
      else
        match (s.wrec m).owner with
        | none => (s.assert false, .answered (.error .einval))
        | some t =>
          if v.value ≠ (s.thr t).lockId then (s, .answered (.error .einval))
          else if t = c then (s, .answered (.error .edeadlk))
          else if v.waiters = false then
            if s.words key = v then
              (s.setWord key { v with waiters := true }).lockCommit c key v (some m) t passed deadline
            else (s, .retry)
          else s.lockCommit c key v (some m) t passed deadline
    | none =>
      if v.value = (s.thr c).lockId then (s, .answered (.error .edeadlk))
      else
        match (if v.value = 0 then none else s.ownerResolve v.value couldHold) with
        | some t => s.lockCommit c key v none t passed deadline
        | none =>
          -- nobody holds it, or a dead thread does
          if s.words key = v then
            (s.setWord key { value := (s.thr c).lockId },
              .answered (if v.value = 0 then .ok 0 else .error .eownerdead))
          else (s, .retry)

/-- The record of a released mutex goes to its highest waiter, with the word that says so. -/
def handOver (m : Rid) (w : Tid) (status : Answer) : Kernel :=
  let rest := (s.wrec m).waiters.erase w
  let s := s.setWord (s.wrec m).key { value := (s.thr w).lockId, waiters := !rest.isEmpty }
  let (s, _) := s.wqPopHighest (.record m)
  let s := s.transferTo m w status
  if (s.wrec m).waiters = [] then (s.heldRemove w m).recordFree m else s

/-- `unlock_attempt`. -/
def unlockAttempt (c : Tid) (ref : Except Errno Key) (v : Word) : Kernel × Attempt :=
  match ref with
  | .error e => (s, .answered (.error e))
  | .ok key =>
    match s.recordFind key with
    | none =>
      if v.value ≠ (s.thr c).lockId then (s, .answered (.error .eperm))
      else if s.words key = v then (s.setWord key {}, .answered (.ok 0))
      else (s, .retry)
    | some m =>
      if (s.wrec m).kind ≠ .pi then (s, .answered (.error .einval))
      else if (s.wrec m).owner ≠ some c then (s, .answered (.error .eperm))
      else
        match s.wqPeekHighest (s.wrec m).waiters with
        | none => (s.assert false, .answered (.ok 0))
        | some next =>
          let s := s.heldRemove c m
          let s := s.handOver m next (.ok 0)
          let s := s.recompute c
          (s.wake next, .answered (.ok 0))

/-- `mutex_owner_exit`: every record of a dying holder goes to its highest waiter. -/
def mutexOwnerExit (dying : Tid) : Nat → Kernel → Kernel
  | 0, s => s
  | fuel + 1, s =>
    match (s.thr dying).heldList with
    | [] => s
    | m :: _ =>
      let s := s.heldRemove dying m
      match s.wqPeekHighest (s.wrec m).waiters with
      | none => s.assert false
      | some next => mutexOwnerExit dying fuel ((s.handOver m next (.error .eownerdead)).wake next)

/-! ### Plain words -/

/-- `word_wait` past its address, the caller not cancelled. -/
def wordWait (c : Tid) (ref : Except Errno Key) (expected : Word) (passed : Bool) (deadline : Option Nat) :
    Kernel × Attempt :=
  match ref with
  | .error e => (s, .answered (.error e))
  | .ok key =>
    let m := s.recordFind key
    if m.any fun m => (s.wrec m).kind ≠ .plain then (s, .answered (.error .einval))
    else if s.words key ≠ expected then (s, .answered (.error .eagain))
    else if passed then (s, .answered (.error .etimedout))
    else
      let (s, m) := match m with
        | some m => (s, m)
        | none => s.recordTake key .plain none
      let s := s.deadlineArm c deadline
      (s.wqBlock c (.record m) (.word m), .parked)

/-- `wake_popped`: pop the highest waiters, handing a unit to each of the first `handed`. -/
def wakePopped (m : Rid) : Nat → Nat → Option Tid → Kernel → Kernel × Option Tid
  | 0, _, top, s => (s, top)
  | woken + 1, handed, top, s =>
    match s.wqPopHighest (.record m) with
    | (s, none) => (s, top)
    | (s, some t) =>
      let s := s.onThr t fun x => { x with waitResult := .ok (if handed = 0 then 0 else 1) }
      let (s, readied) := s.wakeNoResched t
      wakePopped m woken (handed - 1) (if readied && top.isNone then some t else top) s

/-- `wake_attempt`. -/
def wakeAttempt (ref : Except Errno Key) (v : Word) (n units : Nat) : Kernel × Attempt :=
  match ref with
  | .error e => (s, .answered (.error e))
  | .ok key =>
    let m := s.recordFind key
    if m.any fun m => (s.wrec m).kind ≠ .plain then (s, .answered (.error .einval))
    else
      let parked := (m.map fun m => (s.wrec m).waiters.length).getD 0
      let woken := min parked n
      let handed := min woken units
      let banked := units - handed
      if 2 ^ 31 - 1 - v.value < banked then (s, .answered (.error .eoverflow))
      else if s.words key ≠ v then (s, .retry)
      else
        let s := s.setWord key { value := v.value + banked, waiters := woken < parked }
        match m with
        | none => (s, .answered (.ok woken))
        | some m =>
          let (s, top) := wakePopped m woken handed none s
          let s := if (s.wrec m).waiters = [] then s.recordFree m else s
          let s := match top with
            | none => s
            | some t => s.reschedAfterWake t
          (s, .answered (.ok woken))

/-! ### The park unwind -/

/-- The walk of `thread_abort_park` along the holders a leaving waiter had raised. -/
def lowerChain : Nat → Kernel → Tid → Kernel
  | 0, s, _ => s
  | depth + 1, s, owner =>
    let p := s.effectivePrio owner
    if p = (s.thr owner).prio then s
    else
      let s := s.setPrio owner p
      match s.waitMutex owner with
      | none => s
      | some m =>
        match (s.wrec m).owner with
        | none => s
        | some o => lowerChain depth s o

/-- Unlink a thread from the queue it says it is parked on. -/
def unlinkQueue (t : Tid) : Kernel :=
  match (s.thr t).queue with
  | none => s.assert false
  | some q => (s.assert (t ∈ s.queueOf q)).onQueue q fun l => l.erase t

/-- The arm of `thread_abort_park` for the kind of wait the thread is in. -/
def unwind (t : Tid) : Kernel :=
  match (s.thr t).edge with
  | .epSend e =>
    let donor := (s.thr t).callState = .sendWait
    let s := s.unlinkQueue t
    let s := s.onThr t fun x => { x with callState := .none }
    match (s.ep e).server with
    | none => s
    | some server => if donor then s.recompute server else s
  | .epRecv _ =>
    let s := s.unlinkQueue t
    s.onThr t fun x => { x with callState := .none }
  | .epReply server =>
    let (s, unlinked) := s.replyDonorUnpark server t
    let s := s.assert unlinked
    let s := s.onThr t fun x => { x with callState := .none, callSeq := (x.callSeq + 1) % 2 ^ 16 }
    s.recompute server
  | .mutex m =>
    let s := s.unlinkQueue t
    let owner := (s.wrec m).owner
    let s := s.wordWaiterLeft m
    match owner with
    | none => s
    | some o => lowerChain (s.count + 1) s o
  | .word m => (s.unlinkQueue t).wordWaiterLeft m
  | .notify _ | .sleep | .join _ | .taskEmpty _ | .console => s
  | .none => s.assert false

/-- `thread_abort_park`. -/
def threadAbortPark (t : Tid) (result : Answer) : Kernel :=
  let s := s.unwind t
  let s := s.clearWaitEdge t
  let s := s.onThr t fun x => { x with waitResult := result }
  s.wake t

end Kernel
end KickOS
