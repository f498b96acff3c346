import Mathlib.Tactic

/-! Endpoint 0 of the USB console (`usb_cdc_service.h`): the control transfers of `Cdc`, the buffers of the controller
and the transactions of the host. A pass of the service finds all that happened since the last one. -/

namespace KickOS.Usb

/-- `kos_usb_setup`. -/
structure Setup where
  bmRequestType : BitVec 8
  bRequest : BitVec 8
  wValue : BitVec 16
  wIndex : BitVec 16
  wLength : BitVec 16
  deriving DecidableEq

/-- `ep0_state`. -/
inductive Ep0 where
  | idle | inData | inStatus | outData
  deriving DecidableEq

/-- What a request comes to on endpoint 0. -/
inductive Reply where
  | stall
  | ack
  | setAddress (addr : BitVec 8)
  | setConfiguration (config : BitVec 8)
  | send (bytes : List (BitVec 8))
  /-- `KOS_CDC_SET_LINE_CODING`. -/
  | receive
  deriving DecidableEq

/-- `std_request`. No endpoint is ever halted, and a feature is acknowledged whatever it is. -/
def stdRequest (descriptor : BitVec 16 → List (BitVec 8)) (config : BitVec 8) (s : Setup) : Reply :=
  if s.bRequest = 5 then .setAddress ((s.wValue &&& 0x7f).setWidth 8)
  else if s.bRequest = 9 then .setConfiguration (s.wValue.setWidth 8)
  else if s.bRequest = 6 then if descriptor s.wValue = [] then .stall else .send (descriptor s.wValue)
  else if s.bRequest = 8 then .send [config]
  else if s.bRequest = 0 then .send [0, 0]
  else if s.bRequest = 1 ∨ s.bRequest = 3 ∨ s.bRequest = 11 then .ack
  else if s.bRequest = 10 then .send [0]
  else .stall

/-- `class_request`, with the line coding as the seven bytes of the wire. -/
def classRequest (lineCoding : List (BitVec 8)) (s : Setup) : Reply :=
  if s.bRequest = 0x20 then if s.wLength = 7 then .receive else .stall
  else if s.bRequest = 0x21 then .send lineCoding
  else if s.bRequest = 0x22 ∨ s.bRequest = 0x23 then .ack
  else .stall

/-- The answer to a request, with the configuration and the line coding it is found with. -/
def answer (descriptor : BitVec 16 → List (BitVec 8)) (config : BitVec 8) (lineCoding : List (BitVec 8)) (s : Setup) : Reply :=
  if s.bmRequestType &&& 0x60 = 0 then stdRequest descriptor config s
  else if s.bmRequestType &&& 0x60 = 0x20 then classRequest lineCoding s
  else .stall

/-- A packet of the IN buffer, with the request it was queued for. -/
structure Packet where
  req : Nat
  bytes : List (BitVec 8)
  /-- `DATA1`, not `DATA0`. -/
  pid : Bool

/-- What the statements speak of, the requests by their numbers: the SETUP of each, the configuration and the line
coding it was found with, the answer and the length asked for where there is one, the packets the host took, the
requests whose data stage ended, the completions acted on (the request of the packet and the one it was taken for) and
the addresses that were set. -/
structure Log where
  cur : Nat := 0
  setups : Nat → Option Setup := fun _ => none
  found : Nat → BitVec 8 × List (BitVec 8) := fun _ => (0, [])
  asked : Nat → Option (List (BitVec 8) × Nat) := fun _ => none
  sent : Nat → List (List (BitVec 8) × Bool) := fun _ => []
  finished : Nat → Bool := fun _ => false
  acted : List (Nat × Nat) := []
  addressed : List (Nat × BitVec 8) := []

/-- `Cdc` and the controller. -/
structure Sys where
  ep0 : Ep0 := .idle
  /-- The `ep0_left_` bytes at `ep0_src_`. -/
  rest : List (BitVec 8) := []
  zlp : Bool := false
  pid : Bool := true
  pendingAddr : BitVec 8 := 0
  addrPending : Bool := false
  config : BitVec 8 := 0
  lineCoding : List (BitVec 8) := [0x00, 0xc2, 0x01, 0x00, 0, 0, 8]
  address : BitVec 8 := 0
  inBuf : Option Packet := none
  /-- The request the OUT buffer is armed for. -/
  outBuf : Option Nat := none
  /-- A packet the host took, and one it sent, that no pass has seen yet. -/
  inDone : Option Nat := none
  outDone : Option (Nat × List (BitVec 8)) := none
  setup : Option Setup := none
  log : Log := {}

namespace Sys

variable (x : Sys)

/-- `ep0_in` of the controller. -/
def ep0In (bytes : List (BitVec 8)) : Sys := { x with inBuf := some ⟨x.log.cur, bytes, x.pid⟩ }

/-- `ep0_out_arm` of the controller. -/
def ep0OutArm : Sys := { x with outBuf := some x.log.cur }

/-- `ep0_ack`. -/
def ep0Ack : Sys := { ({ x with ep0 := .inStatus, rest := [], zlp := false } : Sys).ep0In [] with pid := true }

/-- `ep0_pump_in`. -/
def ep0PumpIn : Sys :=
  { x.ep0In (x.rest.take 64) with
    pid := !x.pid
    rest := x.rest.drop 64
    zlp := if x.rest.drop 64 = [] ∧ (x.rest.take 64).length ≠ 64 then false else x.zlp }

/-- `ep0_send`. -/
def ep0Send (bytes : List (BitVec 8)) (want : Nat) : Sys :=
  if want = 0 then x.ep0Ack
  else
    let n := min bytes.length want
    ({ x with
      rest := bytes.take n
      zlp := decide (n < want ∧ n ≠ 0 ∧ n % 64 = 0)
      ep0 := .inData
      log := { x.log with asked := Function.update x.log.asked x.log.cur (some (bytes, want)) } } : Sys).ep0PumpIn

def perform (want : Nat) : Reply → Sys
  | .stall => { x with inBuf := none, outBuf := none }
  | .ack => x.ep0Ack
  | .setAddress addr => ({ x with pendingAddr := addr, addrPending := true } : Sys).ep0Ack
  | .setConfiguration config => ({ x with config := config } : Sys).ep0Ack
  | .send bytes => x.ep0Send bytes want
  | .receive => ({ x with ep0 := .outData } : Sys).ep0OutArm

/-- The answer to a request, in the state it is found in. -/
def reply (descriptor : BitVec 16 → List (BitVec 8)) (s : Setup) : Reply := answer descriptor x.config x.lineCoding s

/-- `on_setup`. -/
def onSetup (descriptor : BitVec 16 → List (BitVec 8)) (s : Setup) : Sys :=
  ({ x with
    setup := none
    log := { x.log with
      cur := x.log.cur + 1
      setups := Function.update x.log.setups (x.log.cur + 1) (some s)
      found := Function.update x.log.found (x.log.cur + 1) (x.config, x.lineCoding) }
    pid := true
    ep0 := .idle
    rest := []
    zlp := false } : Sys).perform s.wLength.toNat (x.reply descriptor s)

/-- A completion of the request `k` is acted on. -/
def act (k : Nat) : Sys := { x with log := { x.log with acted := (k, x.log.cur) :: x.log.acted } }

def finish : Sys := { x with ep0 := .idle, log := { x.log with finished := Function.update x.log.finished x.log.cur true } }

/-- `set_address` of the controller, and the flag behind it. -/
def setAddress : Sys :=
  { x with
    address := x.pendingAddr
    addrPending := false
    log := { x.log with addressed := (x.log.cur, x.pendingAddr) :: x.log.addressed } }

/-- `on_ep0_in_done`, for a packet of the request `k`. -/
def onEp0InDone (k : Nat) : Sys :=
  match x.ep0 with
  | .inData =>
    if x.rest ≠ [] ∨ x.zlp then ({ x.act k with zlp := if x.rest = [] then false else x.zlp } : Sys).ep0PumpIn
    else (x.act k).finish.ep0OutArm
  | .inStatus => if x.addrPending then ({ x.act k with ep0 := .idle } : Sys).setAddress else { x.act k with ep0 := .idle }
  | .idle => x
  | .outData => x

/-- `on_ep0_out_done`, for a packet of the request `k`; the request is the line coding's. -/
def onEp0OutDone (k : Nat) (data : List (BitVec 8)) : Sys :=
  if x.ep0 = .outData then
    ({ x.act k with lineCoding := if 7 ≤ data.length then data.take 7 else x.lineCoding, pid := true } : Sys).ep0Ack
  else x

/-- `on_buffers` on endpoint 0. -/
def onBuffersIn : Sys :=
  match x.inDone with
  | some k => ({ x with inDone := none } : Sys).onEp0InDone k
  | none => x

def onBuffersOut : Sys :=
  match x.outDone with
  | some (k, data) => ({ x with outDone := none } : Sys).onEp0OutDone k data
  | none => x

/-- `service_irq`. -/
def serviceIrq (descriptor : BitVec 16 → List (BitVec 8)) : Sys :=
  let x := match x.setup with
    | some s => x.onSetup descriptor s
    | none => x
  x.onBuffersIn.onBuffersOut

end Sys

/-- A transaction of the host on endpoint 0, or a pass of the service. -/
inductive Op where
  | setup (s : Setup)
  /-- An IN: the host takes the packet that is queued. -/
  | take
  /-- An OUT: the host fills the buffer that is armed. -/
  | give (data : List (BitVec 8))
  | pass

def Sys.step (descriptor : BitVec 16 → List (BitVec 8)) (x : Sys) : Op → Sys
  | .setup s => { x with setup := some s }
  | .take =>
    match x.inBuf with
    | some p =>
      { x with
        inBuf := none
        inDone := some p.req
        log := { x.log with sent := Function.update x.log.sent p.req (x.log.sent p.req ++ [(p.bytes, p.pid)]) } }
    | none => x
  | .give data =>
    match x.outBuf with
    | some k => { x with outBuf := none, outDone := some (k, data) }
    | none => x
  | .pass => x.serviceIrq descriptor

/-- A run whose passes all start in a state that meets `P`. -/
inductive Runs (descriptor : BitVec 16 → List (BitVec 8)) (P : Sys → Prop) : Sys → Prop where
  | init : Runs descriptor P {}
  | step {x : Sys} (op : Op) (hx : Runs descriptor P x) (hp : op = .pass → P x) : Runs descriptor P (x.step descriptor op)

/-! ### What the transfers are to be -/

/-- The packet of the given number: 64 bytes, or what is left of them, from `DATA1` on. -/
def chunk (data : List (BitVec 8)) (i : Nat) : List (BitVec 8) × Bool := ((data.drop (64 * i)).take 64, i % 2 == 0)

/-- The answer is shorter than the length asked for and a multiple of the packet size. -/
def Open (bytes : List (BitVec 8)) (want : Nat) : Prop := bytes.length < want ∧ bytes.length % 64 = 0

instance (bytes : List (BitVec 8)) (want : Nat) : Decidable (Open bytes want) := inferInstanceAs (Decidable (_ ∧ _))

/-- The packets of an answer: the bytes asked for, and an empty one where they leave the transfer open. -/
def plan (bytes : List (BitVec 8)) (want : Nat) : List (List (BitVec 8) × Bool) :=
  (List.range (((bytes.take want).length + 63) / 64 + if Open bytes want then 1 else 0)).map (chunk (bytes.take want))

/-- The SETUP of a `SET_ADDRESS` with this address. -/
def SetsAddress (s : Setup) (addr : BitVec 8) : Prop :=
  s.bmRequestType &&& 0x60 = 0 ∧ s.bRequest = 5 ∧ addr = (s.wValue &&& 0x7f).setWidth 8

/-- The answer that is owed to a SETUP, and the length it asks for. -/
def owed (descriptor : BitVec 16 → List (BitVec 8)) (found : BitVec 8 × List (BitVec 8)) (s : Setup) :
    Option (List (BitVec 8) × Nat) :=
  match answer descriptor found.1 found.2 s with
  | .send bytes => if s.wLength.toNat = 0 then none else some (bytes, s.wLength.toNat)
  | _ => none

/-- The transfers as chapter 9 has them. -/
structure Kept (descriptor : BitVec 16 → List (BitVec 8)) (x : Sys) : Prop where
  /-- A completion is acted on for the request of its packet. -/
  acted : ∀ e ∈ x.log.acted, e.1 = e.2
  /-- What is sent for a request is the answer to its SETUP. -/
  asked : ∀ k, x.log.asked k = (x.log.setups k).bind (owed descriptor (x.log.found k))
  /-- The packets sent for an answer are its packets in their order. -/
  sent : ∀ k bytes want, x.log.asked k = some (bytes, want) → x.log.sent k <+: plan bytes want
  /-- And all of them, once the data stage has ended. -/
  finished : ∀ k, x.log.finished k → ∃ bytes want, x.log.asked k = some (bytes, want) ∧ x.log.sent k = plan bytes want
  /-- The address is set for a `SET_ADDRESS` that carried it, on the completion of its status stage, and no other way. -/
  addressed : ∀ e ∈ x.log.addressed, (∃ s, x.log.setups e.1 = some s ∧ SetsAddress s e.2) ∧ (e.1, e.1) ∈ x.log.acted ∧
    x.log.sent e.1 = [([], true)]
  address : x.address = (x.log.addressed.head?.map Prod.snd).getD 0

/-- The reply begins with a packet of its own to the host. -/
def Reply.Answers : Reply → Prop
  | .stall | .receive => False
  | _ => True

/-- The reply is an acknowledgement of another request than `SET_ADDRESS`. -/
def Reply.Acks (want : Nat) : Reply → Prop
  | .ack | .setConfiguration _ => True
  | .send _ => want = 0
  | _ => False

/-- What a pass is to find: a new request does not come with a completion in its own direction, and no other request is
acknowledged while an address is pending. -/
structure Clear (descriptor : BitVec 16 → List (BitVec 8)) (x : Sys) : Prop where
  setup : ∀ s, x.setup = some s →
    (x.inDone.isSome → ¬ (x.reply descriptor s).Answers) ∧ (x.outDone.isSome → x.reply descriptor s ≠ .receive) ∧
    (x.addrPending → ¬ (x.reply descriptor s).Acks s.wLength.toNat)
  buffers : x.setup = none → x.ep0 = .outData → x.outDone.isSome → x.addrPending = false

end KickOS.Usb
