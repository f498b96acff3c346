import KickOS.Kernel.Object

/-! The raise of a notification and the end of a binding (`kernel/notify/notify.cc`). -/

namespace KickOS
namespace Kernel

variable (s : Kernel)

/-- `raise_take`: latch a bit, and detach the waiter it wakes. -/
def raiseTake (n : Nid) (bit : Nat) : Kernel × Option Tid :=
  let s := s.onNote n fun x => { x with pending := x.pending ||| bit }
  match (s.note n).bound with
  | none => (s, none)
  | some t =>
    if (s.note n).accept &&& bit = 0 then (s, none)
    else if (s.thr t).edge = .notify n then (s.clearWaitEdge t, some t)
    else
      match (s.thr t).edge with
      | .epRecv _ =>
        if (s.thr t).state = .blocked then
          let s := s.unlinkQueue t
          let s := s.clearWaitEdge t
          (s.onThr t fun x => { x with waitResult := .error .enotify }, some t)
        else (s, none)
      | _ => (s, none)

/-- `notify_raise`. -/
def notifyRaise (n : Nid) (bit : Nat) : Kernel :=
  match s.raiseTake n bit with
  | (s, none) => s
  | (s, some t) => s.wake t

/-- `unbind_locked`. -/
def unbindLocked (c : Tid) (n : Nid) (obj : Nat) : Kernel :=
  let s := s.onNote n fun x => { x with bound := none, accept := 0 }
  let s := s.onThr c fun x => { x with notifyBound := none }
  s.notifyRefDrop obj

/-- `notify_unbind_self`. -/
def notifyUnbindSelf (c : Tid) : Kernel :=
  match (s.thr c).notifyBound with
  | none => s
  | some obj =>
    match s.notifies.liveIndex obj with
    | none => s.onThr c fun x => { x with notifyBound := none }
    | some n => s.unbindLocked c n obj

end Kernel
end KickOS
