import KickOS.Kernel.Notify

/-! Endpoints: send, call and receive (`kernel/syscall/syscall_ipc.cc`), and the register-only call of
`kernel/syscall/syscall_ipc_fast.cc`.

What the memory system answers is an argument: `Access` says which copies between user buffers go through. On a
board without translation that is every copy whose two ranges are apart (`Access.flat`). -/

namespace KickOS

/-- `KOS_EP_MSG_MAX`. -/
def epMsgMax : Nat := 256

/-- `KCAP_INVALID`. -/
def kcapInvalid : Nat := 2 ^ 32 - 1

/-- Which accesses of one kernel entry succeed. -/
structure Access where
  /-- `ep_copy` to `dst` from `src`. -/
  copy : (dst src n : Nat) → Bool
  /-- `kaccess_to_user` of kernel bytes. -/
  store : (dst n : Nat) → Bool

/-- `ep_copy` where every address is one flat space: only an overlap refuses. -/
def Access.flat : Access where
  copy dst src n := !(src < dst + n && dst < src + n)
  store _ _ := true

namespace Kernel

variable (s : Kernel)

/-- Byte `i` of a word. -/
def byteOf (w i : Nat) : Nat := w / 256 ^ i % 256

def copyBytes (dst src n : Nat) : Kernel :=
  { s with mem := fun a => if dst ≤ a ∧ a < dst + n then s.mem (src + (a - dst)) else s.mem a }

/-- `ep_copy`. -/
def epCopy (acc : Access) (dst src n : Nat) : Option Kernel :=
  if acc.copy dst src n then some (s.copyBytes dst src n) else none

/-- Memory with a `kos_recv_info` written. -/
def infoBytes (out badge replyCap a : Nat) : Nat :=
  if out ≤ a ∧ a < out + 4 then byteOf badge (a - out)
  else if out + 4 ≤ a ∧ a < out + 8 then byteOf replyCap (a - (out + 4))
  else s.mem a

/-- `write_recv_info`: the badge and the reply capability, or nothing for a receive without metadata. -/
def writeRecvInfo (acc : Access) (out badge replyCap : Nat) : Option Kernel :=
  if out = 0 then some s
  else if acc.store out 8 then some { s with mem := s.infoBytes out badge replyCap }
  else none

/-- `reply_wait_seat`. -/
def replyWaitSeat (t : Tid) (buf recvCap : Nat) : Kernel :=
  s.onThr t fun x => { x with
    ipc := { x.ipc with buf := buf, len := recvCap, badgeOut := 0 }, callRxCap := recvCap, callState := .replyWait }

/-- Mint the reply capability of `caller` in the server's table and disclose it in the metadata at `out`, or
retract it where the metadata cannot be written. -/
def mintFor (acc : Access) (server caller : Tid) (out badge : Nat) : Kernel × Bool :=
  let (s, minted) := s.installReply server caller
  let s := s.assert minted.isOk
  let rcap := match minted with
    | .ok cap => cap
    | .error _ => kcapInvalid
  match s.writeRecvInfo acc out badge rcap with
  | some s => (s, true)
  | none =>
    let (s, undone) := s.uninstallReply server rcap caller
    (s.assert undone, false)

/-! ### Deferred wakes -/

/-- `DeferredWake::offer`: keep the higher of the two. -/
def offer (top : Option Tid) (t : Tid) : Option Tid :=
  match top with
  | none => some t
  | some u => if (s.thr t).prio ≤ (s.thr u).prio then some u else some t

/-- Ready a thread and leave the pass to the deferred wake. -/
def wakeOffer (top : Option Tid) (t : Tid) : Kernel × Option Tid :=
  let (s, readied) := s.wakeNoResched t
  (s, if readied then s.offer top t else top)

/-! ### Create and badge -/

/-- `endpoint_create`; `admitted` is the budget's answer. -/
def endpointCreate (c : Tid) (admitted : Bool) : Kernel × Answer :=
  if admitted = false then (s, .error .eagain)
  else
    match s.endpoints.claim with
    | none => (s, .error .enomem)
    | some (i, pool) =>
      let s := { s with endpoints := pool.setRefs i 1 }
      let s := s.onEp i fun _ => { recvHolders := 1, handoutHolders := 1 }
      let obj := s.endpoints.handleFor i
      match s.install c obj .endpoint Rights.all with
      | (s, .ok cap) => (s, .ok cap)
      | (s, .error e) =>
        let pool := s.endpoints.setRefs i 0
        ({ s with endpoints := pool.release obj }, .error e)

/-- `endpoint_badge`. -/
def endpointBadge (c : Tid) (srcCap badge : Nat) : Kernel × Answer :=
  if badge = kcapBadgeNone then (s, .error .einval)
  else
    match s.capResolve c srcCap .endpoint { signal := true, handout := true } with
    | .error e => (s, .error e)
    | .ok _ =>
      let e := (s.thr c).caps.slots (capIndex srcCap)
      let rights := e.rights.inter { signal := true, transfer := true }
      match s.objRefInc .endpoint e.obj rights with
      | none => (s, .error .eoverflow)
      | some s =>
        match capRunPeekFree (s.thr c).caps.freeHead with
        | none => (s.objRefUndo .endpoint e.obj rights, .error .emfile)
        | some index =>
          let s := s.installAt c index e.obj .endpoint rights badge
          (s, .ok (capHandle ((s.thr c).caps.slots index).gen index))

/-! ### Send -/

/-- `endpoint_send`; `readable` is the check of the buffer. A limit of `some 0` never parks. -/
def endpointSend (acc : Access) (c : Tid) (cap buf len : Nat) (readable noWait : Bool) (deadline : Option Nat) :
    Kernel × Attempt :=
  if epMsgMax < len then (s, .answered (.error .einval))
  else if readable = false then (s, .answered (.error .efault))
  else
    match s.capResolve c cap .endpoint { signal := true } with
    | .error e => (s, .answered (.error e))
    | .ok e =>
      let badge := s.senderBadge c cap
      if s.takesSends e = false then (s, .answered (.error (s.unserved e 0)))
      else
        match s.wqPopHighest (.recv e) with
        | (s, some w) =>
          let n := min len (s.thr w).ipc.len
          match s.epCopy acc (s.thr w).ipc.buf buf n with
          | none => ((s.onThr w fun x => { x with waitResult := .error .efault }).wake w, .answered (.error .efault))
          | some s =>
            let s := (s.writeRecvInfo acc (s.thr w).ipc.badgeOut badge kcapInvalid).getD s
            ((s.onThr w fun x => { x with waitResult := .ok n }).wake w, .answered (.ok n))
        | (s, none) =>
          if noWait then (s, .answered (.error .etimedout))
          else
            let s := s.onThr c fun x => { x with
              ipc := { x.ipc with buf := buf, len := len, badge := badge }, callState := .none }
            let s := s.deadlineArm c deadline
            (s.wqBlock c (.send e) (.epSend e), .parked)

/-! ### Receive -/

/-- `caller_refuse`: answer a popped caller and drop the donation it gave. -/
def callerRefuse (c t : Tid) (answer : Errno) (top : Option Tid) : Kernel × Option Tid :=
  let s := s.onThr t fun x => { x with callState := .none, waitResult := .error answer }
  (s.recompute c).wakeOffer top t

/-- A receiver takes the call of `t`: the copy, the mint and the metadata. -/
def takeCall (acc : Access) (c t buf capLen badgeOut : Nat) : Kernel × Bool :=
  match s.epCopy acc buf (s.thr t).ipc.buf (min (s.thr t).ipc.len capLen) with
  | none => (s, false)
  | some s => s.mintFor acc c t badgeOut (s.thr t).ipc.badge

/-- The scan of `endpoint_recv_locked` over the parked senders; `none` where the queue ran empty. -/
def recvScan (acc : Access) (c : Tid) (e : Eid) (buf capLen badgeOut : Nat) :
    Nat → Kernel → Option Tid → Kernel × Option Tid × Option Answer
  | 0, s, top => (s, top, none)
  | fuel + 1, s, top =>
    match s.wqPopHighest (.send e) with
    | (s, none) => (s, top, none)
    | (s, some t) =>
      if (s.thr t).callState = .sendWait then
        if badgeOut = 0 then
          let (s, top) := s.callerRefuse c t .enotsup top
          recvScan acc c e buf capLen badgeOut fuel s top
        else if capCanTakeReply (s.thr c).caps = false then
          let (s, top) := s.callerRefuse c t .emfile top
          recvScan acc c e buf capLen badgeOut fuel s top
        else
          let n := min (s.thr t).ipc.len capLen
          match s.takeCall acc c t buf capLen badgeOut with
          | (s, false) =>
            let (s, top) := s.callerRefuse c t .efault top
            (s, top, some (.error .efault))
          | (s, true) =>
            let s := s.replyWaitSeat t (s.thr t).ipc.buf (s.thr t).callRxCap
            let s := s.replyDonorPark c t
            let s := if (s.thr c).prio < (s.thr t).prio then s.setPrio c (s.thr t).prio else s
            (s, top, some (.ok n))
      else
        let n := min (s.thr t).ipc.len capLen
        match s.epCopy acc buf (s.thr t).ipc.buf n with
        | none =>
          let (s, top) := (s.onThr t fun x => { x with waitResult := .error .efault }).wakeOffer top t
          (s, top, some (.error .efault))
        | some s =>
          let s := (s.writeRecvInfo acc badgeOut (s.thr t).ipc.badge kcapInvalid).getD s
          let (s, top) := (s.onThr t fun x => { x with waitResult := .ok n }).wakeOffer top t
          (s, top, some (.ok n))

/-- `endpoint_server_set`. -/
def endpointServerSet (e : Eid) (t : Tid) : Kernel :=
  if (s.ep e).server = some t then s
  else
    let s := s.endpointServerClear e
    let s := s.onThr t fun x => { x with served := e :: x.served }
    s.onEp e fun x => { x with server := some t }

/-- `endpoint_receiver_waits`. -/
def endpointReceiverWaits (e : Eid) (t : Tid) : Kernel :=
  (s.endpointServerSet e t).onEp e fun x => { x with vacated := false }

/-- `task_note_receive`: the first wait of a member on the endpoint the creator named raises the watch; answers the
thread that readied. -/
def taskNoteReceive (k : Option TaskId) (obj : Nat) : Kernel × Option Tid :=
  match k with
  | none => (s, none)
  | some k =>
    if (s.task k).ready ∨ (s.task k).watchEp ≠ some obj then (s, none)
    else
      let s := s.onTask k fun x => { x with ready := true }
      match (s.task k).watchNotify.bind s.notifies.liveIndex with
      | none => (s, none)
      | some n =>
        match s.raiseTake n (2 ^ (s.task k).watchBit) with
        | (s, none) => (s, none)
        | (s, some t) => ((s.wakeNoResched t).1, if (s.wakeNoResched t).2 then some t else none)

/-- Memory with the bytes of a list at `dst`. -/
def listBytes (dst : Nat) (l : List Nat) (a : Nat) : Nat := if dst ≤ a then (l[a - dst]?).getD (s.mem a) else s.mem a

/-- `console_held_take`. -/
def consoleHeldTake (n : Nat) : Kernel :=
  match s.held with
  | [] => s
  | r :: rest => { s with held := if r.length ≤ n then rest else r.drop n :: rest }

/-- `held_serve`: as much of the front record as the buffer takes, ahead of every queued sender, and taken on a
refused copy too; `none` where nothing is held. -/
def heldServe (acc : Access) (buf capLen badgeOut : Nat) : Kernel × Option Answer :=
  let r := s.held.headD []
  if r = [] ∨ capLen = 0 then (s, none)
  else
    let n := min r.length capLen
    if acc.store buf n then
      let s := { s with mem := s.listBytes buf (r.take n) }
      match s.writeRecvInfo acc badgeOut kcapBadgeNone kcapInvalid with
      | some s => (s.consoleHeldTake n, some (.ok n))
      | none => (s.consoleHeldTake n, some (.error .efault))
    else (s.consoleHeldTake n, some (.error .efault))

/-- The deferred wake at the end of a call. -/
def wakeTop (top : Option Tid) : Kernel :=
  match top with
  | none => s
  | some t => s.reschedAfterWake t

/-- What a receive takes: what the kernel holds for its console, then the parked senders; else it parks. -/
def recvFrom (acc : Access) (c : Tid) (e : Eid) (buf capLen badgeOut : Nat) (deadline : Option Nat) (top : Option Tid) :
    Kernel × Attempt :=
  match if (s.ep e).console = .served then s.heldServe acc buf capLen badgeOut else (s, none) with
  | (s, some rc) => (s.wakeTop top, .answered rc)
  | (s, none) =>
    match recvScan acc c e buf capLen badgeOut ((s.ep e).sendWaiters.length + 1) s top with
    | (s, top, some rc) => (s.wakeTop top, .answered rc)
    | (s, _, none) =>
      let s := s.onThr c fun x => { x with ipc := { x.ipc with buf := buf, len := capLen, badgeOut := badgeOut } }
      let s := s.deadlineArm c deadline
      (s.wqBlock c (.recv e) (.epRecv e), .parked)

/-- `endpoint_recv_locked`, with the deferred wake run behind it. -/
def endpointRecv (acc : Access) (c : Tid) (cap buf capLen badgeOut : Nat) (deadline : Option Nat) : Kernel × Attempt :=
  match s.capResolve c cap .endpoint { wait := true } with
  | .error e => (s, .answered (.error e))
  | .ok e =>
    let s := s.endpointReceiverWaits e c
    let r := s.taskNoteReceive (s.thr c).task ((s.thr c).caps.slots (capIndex cap)).obj
    r.1.recvFrom acc c e buf capLen badgeOut deadline r.2

/-! ### Call -/

/-- A call that finds a receiver parked and able to answer. -/
def callReceiver (acc : Access) (c w : Tid) (e : Eid) (badge buf sendLen recvCap : Nat) (deadline : Option Nat) :
    Kernel × Attempt :=
  let (s, _) := s.wqPopHighest (.recv e)
  let n := min sendLen (s.thr w).ipc.len
  match s.epCopy acc (s.thr w).ipc.buf buf n with
  | none => ((s.onThr w fun x => { x with waitResult := .error .efault }).wake w, .answered (.error .efault))
  | some s =>
    let s := s.onThr c fun x => { x with callSeq := (x.callSeq + 1) % 2 ^ 16 }
    match s.mintFor acc w c (s.thr w).ipc.badgeOut badge with
    | (s, false) =>
      ((s.onThr w fun x => { x with waitResult := .error .efault }).wake w, .answered (.error .efault))
    | (s, true) =>
      let s := s.onThr w fun x => { x with waitResult := .ok n }
      let s := s.replyWaitSeat c buf recvCap
      let s := if (s.thr w).prio < (s.thr c).prio then s.setPrio w (s.thr c).prio else s
      let s := s.onThr c fun x => { x with tail := .call }
      let s := s.parkQueueless c (.epReply w)
      let s := s.replyDonorPark w c
      let s := s.deadlineArm c deadline
      (s.wake w, .parked)

/-- A call that finds no receiver parks on the senders' queue. -/
def callPark (c : Tid) (e : Eid) (badge buf sendLen recvCap : Nat) (deadline : Option Nat) : Kernel :=
  let s := s.onThr c fun x => { x with
    ipc := { x.ipc with buf := buf, len := sendLen, badge := badge }, callRxCap := recvCap
    callSeq := (x.callSeq + 1) % 2 ^ 16, callState := .sendWait, tail := .call }
  let s := match (s.ep e).server with
    | none => s
    | some server => if (s.thr server).prio < (s.thr c).prio then s.setPrio server (s.thr c).prio else s
  let s := s.deadlineArm c deadline
  s.wqBlock c (.send e) (.epSend e)

/-- `endpoint_call`; `valid` is the check of the buffer. -/
def endpointCall (acc : Access) (c : Tid) (cap buf sendLen recvCap : Nat) (valid : Bool) (deadline : Option Nat) :
    Kernel × Attempt :=
  if epMsgMax < sendLen then (s, .answered (.error .einval))
  else if valid = false then (s, .answered (.error .efault))
  else
    let recvCap := min recvCap epMsgMax
    match s.capResolve c cap .endpoint { signal := true } with
    | .error e => (s, .answered (.error e))
    | .ok e =>
      let badge := s.senderBadge c cap
      if s.takesSends e = false then (s, .answered (.error (s.unserved e 0)))
      else
        match s.wqPeekHighest (s.ep e).recvWaiters with
        | some w =>
          if (s.thr w).ipc.badgeOut = 0 then (s, .answered (.error .enotsup))
          else if (s.thr w).dying then (s, .answered (.error (s.unserved e 1)))
          else if capCanTakeReply (s.thr w).caps = false then (s, .answered (.error .emfile))
          else s.callReceiver acc c w e badge buf sendLen recvCap deadline
        | none => (s.callPark c e badge buf sendLen recvCap deadline, .parked)

/-! ### The fast path -/

/-- `KOS_CALL_REG_BYTES`. -/
def callRegBytes : Nat := 20

/-- `kickos_ipc_fastpath`: `frame` is the address of the saved registers `args`, whose payload starts at `args[3]`;
`none` is the refusal. -/
def ipcFastpath (frame cap sendLen recvCap : Nat) : Option Kernel :=
  match s.current with
  | none => none
  | some c =>
    if (s.thr c).cancelKind ≠ .none ∨ (s.thr c).dying = true then none
    else if callRegBytes < sendLen ∨ callRegBytes < recvCap then none
    else
      match s.capResolve c cap .endpoint { signal := true } with
      | .error _ => none
      | .ok e =>
        match s.wqPeekHighest (s.ep e).recvWaiters with
        | none => none
        | some w =>
          if (s.thr w).ipc.badgeOut = 0 ∨ (s.thr w).dying = true then none
          else if (s.thr w).prio < (s.thr c).prio then none
          else if capCanTakeReply (s.thr w).caps = false then none
          else
            let n := min sendLen (s.thr w).ipc.len
            match s.epCopy Access.flat (s.thr w).ipc.buf (frame + 12) n with
            | none => none
            | some s =>
              let (s, _) := s.wqPopHighest (.recv e)
              let s := s.onThr c fun x => { x with callSeq := (x.callSeq + 1) % 2 ^ 16 }
              let (s, _) := s.mintFor Access.flat w c (s.thr w).ipc.badgeOut (s.senderBadge c cap)
              let s := s.onThr w fun x => { x with waitResult := .ok n }
              let s := s.replyWaitSeat c (frame + 4) recvCap
              let s := s.onThr c fun x => { x with callFrameParked := true }
              let s := s.parkQueueless c (.epReply w)
              let s := s.replyDonorPark w c
              let (s, readied) := s.wakeNoResched w
              let s := s.assert readied
              let next := s.policyPickNext
              let s := s.assert (next ≠ some c)
              some (s.switchBook next)

end Kernel
end KickOS
