import KickOS.Kernel.Sync

/-! Capabilities and the objects they name (`kernel/syscall/cap.cc`): resolution, the reference counters, the
close protocol, narrowing and the release of one entry.

Interrupt bindings, frame runs, address spaces and programs have no pool here: their entries sit in the tables, and
closing one touches no state of this model. -/

namespace KickOS
namespace Kernel

variable (s : Kernel)

/-- `UINT8_MAX`, the ceiling of every reference and holder count. -/
def refMax : Nat := 255

def threadHandle (t : Tid) : Nat := handlePack (s.thr t).gen t

def onCaps (t : Tid) (f : CapTable → CapTable) : Kernel := s.onThr t fun x => { x with caps := f x.caps }

/-! ### Names and generations -/

/-- `cap_obj_generation`. -/
def capObjGeneration (type : CapType) (obj : Nat) : Nat :=
  match type with
  | .endpoint => s.endpoints.generation obj
  | .notify => s.notifies.generation obj
  | .reply => if s.count ≤ handleIndex obj then 0 else (s.thr (handleIndex obj)).gen
  | .empty | .irq | .frame | .aspace | .program => 0

/-- `cap_obj_live`. -/
def capObjLive (e : CapEntry) : Bool := s.capObjGeneration e.type e.obj = e.objGen

/-- `cap_obj`: the handle, unless its slot was reused since the install. -/
def capObj (e : CapEntry) : Option Nat := if s.capObjLive e then some e.obj else none

/-- `cap_resolve_e`: the slot of the object a handle names, with the rights the call needs. -/
def capResolve (c : Tid) (cap : Nat) (want : CapType) (need : Rights) : Except Errno Nat :=
  match capLookup (s.thr c).caps cap with
  | none => .error .ebadf
  | some idx =>
    let e := (s.thr c).caps.slots idx
    if e.type ≠ want then .error .ebadf
    else if e.rights.has need = false then .error .eacces
    else if s.capObjLive e = false then .error .ebadf
    else
      let slot := match want with
        | .endpoint => s.endpoints.liveIndex e.obj
        | .notify => s.notifies.liveIndex e.obj
        | _ => none
      match slot with
      | none => .error .ebadf
      | some i => .ok i

/-- `sender_badge`. -/
def senderBadge (c : Tid) (cap : Nat) : Nat := ((s.thr c).caps.slots (capIndex cap)).badge

/-- `cap_install_at` into a thread's table; the slot named must be a free dynamic one. -/
def installAt (c : Tid) (index obj : Nat) (type : CapType) (rights : Rights) (badge : Nat) : Kernel :=
  let t := (s.thr c).caps
  let s := s.assert (capFirstDynamic ≤ index ∧ index < t.width ∧ (t.slots index).type = .empty)
  s.onCaps c fun t => capInstallAt t index obj (s.capObjGeneration type obj) type rights badge

/-- `cap_install` into a thread's table. -/
def install (c : Tid) (obj : Nat) (type : CapType) (rights : Rights) : Kernel × Answer :=
  let (t, r) := capInstall (s.thr c).caps obj (s.capObjGeneration type obj) type rights
  (s.onCaps c fun _ => t, r)

/-- `cap_install_reply`: `c` mints the reply capability of `caller`. -/
def installReply (c caller : Tid) : Kernel × Answer :=
  let (t, r) := capInstallReply (s.thr c).caps (s.threadHandle caller) (s.thr caller).gen (s.thr caller).callSeq
  (s.onCaps c fun _ => t, r)

/-- `cap_uninstall_reply`. -/
def uninstallReply (c : Tid) (cap : Nat) (caller : Tid) : Kernel × Bool :=
  let (t, done) := capUninstallReply (s.thr c).caps cap (s.threadHandle caller)
  (s.onCaps c fun _ => t, done)

/-- `cap_slot_vacate`. -/
def slotVacate (c : Tid) (index : Nat) : Kernel := s.onCaps c fun t => capSlotVacate t index

/-- `cap_reply_thread` at the width of a local entry: the low 8 bits of the sequence. -/
def capReplyThread (handle seq : Nat) : Option Tid :=
  let t := handleIndex handle
  if s.count ≤ t ∨ (s.thr t).gen % 2 ^ 16 ≠ handleGen handle then none
  else if (s.thr t).state ≠ .blocked ∨ (s.thr t).callState ≠ .replyWait then none
  else if (s.thr t).callSeq % 256 ≠ seq % 256 then none
  else some t

/-- `cap_reply_caller`. -/
def capReplyCaller (e : CapEntry) : Option Tid :=
  if s.capObjLive e then s.capReplyThread e.obj (capReplySeq e) else none

/-! ### The counters -/

/-- Move the counters of one capability of an endpoint. -/
def moveRefs (e : Eid) (rights : Rights) (f : Nat → Nat) : Kernel :=
  let s := { s with endpoints := s.endpoints.setRefs e (f (s.endpoints.refs e)) }
  s.onEp e fun x => { x with
    recvHolders := if rights.wait then f x.recvHolders else x.recvHolders
    handoutHolders := if rights.handout then f x.handoutHolders else x.handoutHolders }

/-- `obj_ref_inc`: every ceiling is tested before any counter moves; `none` is the refusal. -/
def objRefInc (type : CapType) (obj : Nat) (rights : Rights) : Option Kernel :=
  match type with
  | .endpoint =>
    match s.endpoints.liveIndex obj with
    | none => some s
    | some e =>
      if s.endpoints.refs e = refMax ∨ (rights.wait = true ∧ (s.ep e).recvHolders = refMax) ∨
          (rights.handout = true ∧ (s.ep e).handoutHolders = refMax) then none
      else some (s.moveRefs e rights (· + 1))
  | .notify =>
    match s.notifies.liveIndex obj with
    | none => some s
    | some n =>
      if s.notifies.refs n = refMax then none
      else some { s with notifies := s.notifies.setRefs n (s.notifies.refs n + 1) }
  | _ => some s

/-- `obj_ref_undo`. -/
def objRefUndo (type : CapType) (obj : Nat) (rights : Rights) : Kernel :=
  match type with
  | .endpoint =>
    match s.endpoints.liveIndex obj with
    | none => s
    | some e => (s.assert (1 < s.endpoints.refs e)).moveRefs e rights (· - 1)
  | .notify =>
    match s.notifies.liveIndex obj with
    | none => s
    | some n =>
      let s := s.assert (1 < s.notifies.refs n)
      { s with notifies := s.notifies.setRefs n (s.notifies.refs n - 1) }
  | _ => s

/-- `task_watch_notify_gone`. -/
def taskWatchNotifyGone (obj : Nat) : Kernel :=
  { s with task := fun k => if (s.task k).watchNotify = some obj then { s.task k with watchNotify := none } else s.task k }

/-- `notify_ref_drop`. -/
def notifyRefDrop (obj : Nat) : Kernel :=
  match s.notifies.liveIndex obj with
  | none => s
  | some n =>
    let s := { s with notifies := s.notifies.setRefs n (s.notifies.refs n - 1) }
    if s.notifies.refs n ≠ 0 then s
    else
      let s := s.assert ((s.note n).bound = none)
      let s := s.assert ((s.note n).signallers = 0)
      let s := s.taskWatchNotifyGone obj
      { s with notifies := s.notifies.release obj }

/-- The endpoint arm of `obj_ref_drop`: the last reference frees the slot. -/
def endpointRefDrop (obj : Nat) (teardown : Bool) : Kernel :=
  match s.endpoints.liveIndex obj with
  | none => s
  | some e =>
    let s := { s with endpoints := s.endpoints.setRefs e (s.endpoints.refs e - 1) }
    if s.endpoints.refs e ≠ 0 then s
    else if (s.ep e).sendWaiters ≠ [] ∨ (s.ep e).recvWaiters ≠ [] then
      let s := s.assert teardown
      { s with endpoints := s.endpoints.setRefs e 1 }
    else
      let s := s.assert ((s.ep e).server = none)
      { s with endpoints := s.endpoints.release obj }

/-- `obj_ref_drop`. -/
def objRefDrop (e : CapEntry) (teardown : Bool) : Kernel :=
  match e.type with
  | .endpoint =>
    match s.capObj e with
    | none => s
    | some obj => s.endpointRefDrop obj teardown
  | .notify =>
    match s.capObj e with
    | none => s
    | some obj => s.notifyRefDrop obj
  | .empty => s.assert false
  | .reply | .irq | .frame | .aspace | .program => s

/-! ### Endpoints that lose a right -/

/-- `endpoint_receiving`. -/
def receiving (e : Eid) : Bool := (s.ep e).recvHolders ≠ 0 && !(s.ep e).vacated

/-- `endpoint_takes_sends`. -/
def takesSends (e : Eid) : Bool :=
  match (s.ep e).console with
  | .none => s.receiving e
  | .served => true
  | .ended => false

/-- `endpoint_unserved`. -/
def unserved (e : Eid) (leaving : Nat) : Errno :=
  if leaving < (s.ep e).recvHolders ∨ 0 < (s.ep e).handoutHolders then .eagain else .econnrefused

/-- `answer_senders`. -/
def answerSenders (e : Eid) (answer : Errno) : Nat → Kernel → Kernel
  | 0, s => s
  | fuel + 1, s =>
    match s.wqPopHighest (.send e) with
    | (s, none) => s
    | (s, some t) =>
      answerSenders e answer fuel ((s.onThr t fun x => { x with waitResult := .error answer }).wake t)

/-- Answer every sender parked on the endpoint. -/
def answerAllSenders (e : Eid) (answer : Errno) : Kernel :=
  answerSenders e answer (s.ep e).sendWaiters.length s

/-- `refuse_senders`. -/
def refuseSenders (e : Eid) : Kernel := s.answerAllSenders e (s.unserved e 0)

/-- The server half of `endpoint_rights_dropped`: a closer that served the endpoint no longer does, and lowers
itself unless it is dying. -/
def dropServer (closer : Tid) (e : Eid) (teardown : Bool) : Kernel :=
  if (s.ep e).server = some closer then
    let s := s.endpointServerClear e
    if teardown then s
    else if s.effectivePrio closer ≠ (s.thr closer).prio then (s.recompute closer).reschedule
    else s
  else s

/-- The receiver half of `endpoint_rights_dropped`: the last receiver leaves every parked sender answered, unless
the endpoint is the served console. -/
def dropReceiver (e : Eid) : Kernel :=
  if (s.ep e).recvHolders = 0 then s
  else
    let s := s.onEp e fun x => { x with recvHolders := x.recvHolders - 1 }
    if (s.ep e).recvHolders ≠ 0 then s
    else
      let s := s.onEp e fun x => { x with vacated := true }
      if (s.ep e).console = .served then s else s.refuseSenders e

/-- `endpoint_rights_dropped`. -/
def endpointRightsDropped (closer : Tid) (obj : Option Nat) (dropped : Rights) (teardown : Bool) : Kernel :=
  match obj.bind s.endpoints.liveIndex with
  | none => s
  | some e =>
    let s := if dropped.handout then s.onEp e fun x => { x with handoutHolders := x.handoutHolders - 1 } else s
    if dropped.wait = false then s else (s.dropServer closer e teardown).dropReceiver e

/-! ### Closing -/

/-- The reply arm of `obj_close_protocol`: a caller still parked for this entry is answered `EPIPE`. -/
def closeReply (closer : Tid) (e : CapEntry) (teardown : Bool) : Kernel :=
  let (s, caller) := match s.capReplyCaller e with
    | none => (s, none)
    | some caller =>
      match s.replyDonorUnpark closer caller with
      | (s, true) => (s, some caller)
      | (s, false) => (s, none)
  let s := match caller with
    | none => s
    | some t => s.onThr t fun x => { x with callState := .none, waitResult := .error .epipe }
  let s := if teardown then s else s.recompute closer
  match caller with
  | none => s
  | some t => s.wake t

/-- `obj_close_protocol`. -/
def objCloseProtocol (closer : Tid) (e : CapEntry) (teardown : Bool) : Kernel :=
  match e.type with
  | .endpoint => s.endpointRightsDropped closer (s.capObj e) e.rights teardown
  | .reply => s.closeReply closer e teardown
  | .empty | .irq | .frame | .aspace | .notify | .program => s

/-- Close one live entry: the protocol, the vacate, then the reference (`handle_close`, `teardown_entry`). -/
def closeEntry (c : Tid) (index : Nat) (teardown : Bool) : Kernel :=
  let e := (s.thr c).caps.slots index
  let s := s.objCloseProtocol c e teardown
  let s := s.slotVacate c index
  s.objRefDrop e teardown

/-- `handle_close`. -/
def handleClose (c : Tid) (cap : Nat) : Kernel × Answer :=
  match capLookup (s.thr c).caps cap with
  | none => (s, .error .ebadf)
  | some idx => if idx < capFirstDynamic then (s, .error .eperm) else (s.closeEntry c idx false, .ok 0)

/-- `CAP_AUTH_ALL`, ten bits. -/
def capAuthAll : Nat := 2 ^ 10 - 1

/-- `cap_check_authority`. -/
def capCheckAuthority (c : Tid) (need : Nat) : Bool := (s.thr c).authority &&& need = need

/-- `cap_seat_authority`. -/
def capSeatAuthority (t : Tid) (auth : Nat) : Kernel := s.onThr t fun x => { x with authority := auth &&& capAuthAll }

/-- `cap_narrow` of the authority word, which `KOS_CAP_AUTHORITY` names. -/
def capNarrowAuthority (c : Tid) (mask : Nat) : Kernel × Answer :=
  if (s.thr c).authority = 0 then (s, .error .ebadf)
  else (s.onThr c fun x => { x with authority := x.authority &&& mask }, .ok 0)

/-- `cap_narrow` of a capability. -/
def capNarrow (c : Tid) (cap : Nat) (mask : Rights) : Kernel × Answer :=
  match capLookup (s.thr c).caps cap with
  | none => (s, .error .ebadf)
  | some idx =>
    if idx < capFirstDynamic then (s, .error .eperm)
    else
      let e := (s.thr c).caps.slots idx
      let kept := e.rights.inter mask
      let dropped := e.rights.diff kept
      let s := s.onCaps c fun t => t.mapSlot idx fun e => { e with rights := kept }
      if e.type = .endpoint ∧ dropped ≠ {} then (s.endpointRightsDropped c (s.capObj e) dropped false, .ok 0)
      else (s, .ok 0)

end Kernel
end KickOS
