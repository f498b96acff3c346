import KickOS.Usb.Model

/-! The bulk IN endpoint of the USB console (`usb_cdc_service.h`) with the buffer of the RP controller (`rpusb.cc`): the
text a configuration begins with, the bytes of the transmit ring, and what becomes of a packet when the link is reset
under it.

A pass of the service is five steps: it samples the events, and then acts on a bus reset, on a SETUP, on the buffers,
and fills the endpoint. The host and the service thread act between any two of them. What they do while one of these
runs falls before it or behind it, for the step looks at the buffer, at the status of the buffers and at the ring once.
-/

namespace KickOS.Usb.Bulk

/-- `KOS_USB_CDC_BULK_MAX_PACKET`. -/
def maxPacket : Nat := 32

/-- What the transmit ring holds at most: one byte of `KOS_USB_TX_SIZE` stays free. -/
def ringRoom : Nat := 1023

inductive Kind where
  | identity | data | empty
  deriving DecidableEq

/-- A packet of the bulk IN endpoint, with its number. -/
structure Packet where
  id : Nat
  kind : Kind
  bytes : List (BitVec 8)
  /-- `DATA1`, not `DATA0`. -/
  pid : Bool
  deriving DecidableEq

/-- What `take_events` reports. -/
structure Events where
  reset : Bool
  setup : Bool
  buffer : Bool

/-- Where a pass is. -/
inductive Pc where
  | wait
  | busReset (ev : Events)
  | setup (ev : Events)
  | buffers (ev : Events)
  | pump

/-- What a SETUP is to the bulk IN endpoint. -/
inductive Request where
  | configure (config : BitVec 8)
  | halt
  | clearHalt
  | other
  deriving DecidableEq

/-- `std_request` and `feature`, for the bulk IN endpoint. -/
def request (s : Setup) : Request :=
  if s.bmRequestType &&& 0x60 ≠ 0 then .other
  else if s.bRequest = 9 then .configure (s.wValue.setWidth 8)
  else if s.bmRequestType &&& 0x1f ≠ 2 ∨ s.wValue ≠ 0 ∨ s.wIndex &&& 0x8f ≠ 0x82 then .other
  else if s.bRequest = 1 then .clearHalt
  else if s.bRequest = 3 then .halt
  else .other

/-- What the statements speak of: the bytes that went into the ring and out of it, every packet that was queued, those
since the link was last disturbed and those since it was configured, the packet the service takes to be with the
controller, the packets that were replaced in the buffer, the completions acted on (the packet that completed and the
one it was taken for), the packets given up, and the bytes completed and lost. -/
structure Log where
  pushed : List (BitVec 8) := []
  removed : List (BitVec 8) := []
  handed : List Packet := []
  session : List Packet := []
  stream : List Packet := []
  flight : Option Packet := none
  replaced : List Nat := []
  acted : List (Nat × Nat) := []
  abandoned : List Nat := []
  completed : Nat := 0
  lost : Nat := 0

/-- `Cdc`, `Shared`, the controller and the pass. -/
structure Sys where
  configured : Bool := false
  pid : Bool := false
  zlpInflight : Bool := false
  idLeft : Nat := 0
  idInflight : Bool := false
  ring : List (BitVec 8) := []
  txInflight : Nat := 0
  txZlp : Bool := false
  txLostLink : BitVec 32 := 0
  /-- The buffer of the endpoint. -/
  buf : Option Packet := none
  /-- The endpoint's bit of `BUFF_STATUS`, with the packet that set it. -/
  done : Option Nat := none
  reset : Bool := false
  setup : Option Setup := none
  pc : Pc := .wait
  log : Log := {}

/-- The number of the packet the service takes to be with the controller, if there is one. -/
def Log.flightId (log : Log) : List Nat := (log.flight.map Packet.id).toList

/-- The completion of packet `id` is acted on. It means nothing where no packet is in flight. -/
def Log.act (log : Log) (id bytes : Nat) : Log :=
  { log with
    flight := none
    acted := log.flightId.map (fun p => (id, p)) ++ log.acted
    completed := log.completed + bytes }

namespace Sys

variable (x : Sys)

/-- The bytes of the ring that are in flight. -/
def inflight : Nat := if x.idInflight then 0 else x.txInflight

/-- `drop_in_flight`. -/
def dropInFlight : Sys :=
  { x with
    txLostLink := if x.idInflight then x.txLostLink else x.txLostLink + BitVec.ofNat 32 x.txInflight
    idInflight := false
    txInflight := 0
    zlpInflight := false
    txZlp := false
    log := { x.log with
      flight := none
      session := []
      abandoned := x.log.flightId ++ x.log.abandoned
      lost := x.log.lost + x.inflight } }

/-- `reset_state`. -/
def resetState : Sys :=
  { x with
    configured := false
    pid := false
    zlpInflight := false
    idLeft := 0
    idInflight := false
    txInflight := 0
    txZlp := false }

/-- `ep_open_all` and `ep_stall` of the controller: the buffer is no longer armed. -/
def unarm : Sys := { x with buf := none }

def restart : Sys := { x with log := { x.log with stream := [] } }

/-- `on_bus_reset`. -/
def onBusReset : Sys := ({ x.dropInFlight with reset := false } : Sys).resetState.unarm.restart

/-- `on_setup`, for the bulk IN endpoint. -/
def onRequest (identity : List (BitVec 8)) : Request → Sys
  | .configure config =>
    let y := ({ x with pid := false } : Sys).dropInFlight.unarm.restart
    if config ≠ 0 then { y with idLeft := identity.length, configured := true } else { y with configured := false }
  | .halt => x.unarm
  | .clearHalt => ({ x.unarm with pid := false } : Sys).dropInFlight
  | .other => x

def onSetup (identity : List (BitVec 8)) : Sys :=
  match x.setup with
  | some s => ({ x with setup := none } : Sys).onRequest identity (request s)
  | none => x

/-- `on_buffers`, for the bulk IN endpoint. -/
def onBuffers : Sys :=
  match x.done with
  | none => x
  | some id =>
    if x.zlpInflight then { x with done := none, zlpInflight := false, txZlp := false, log := x.log.act id 0 }
    else { x with done := none, idInflight := false, txInflight := 0, log := x.log.act id x.inflight }

/-- `ep_in` of the controller, and the toggle behind it. -/
def epIn (kind : Kind) (bytes : List (BitVec 8)) : Sys :=
  let p : Packet := ⟨x.log.handed.length, kind, bytes, x.pid⟩
  { x with
    buf := some p
    pid := !x.pid
    log := { x.log with
      handed := x.log.handed ++ [p]
      session := x.log.session ++ [p]
      stream := x.log.stream ++ [p]
      flight := some p
      replaced := (x.buf.map Packet.id).toList ++ x.log.replaced } }

/-- `kos_byte_ring_drop`. -/
def ringDrop (n : Nat) : Sys := { x with ring := x.ring.drop n, log := { x.log with removed := x.log.removed ++ x.ring.take n } }

/-- `pump_tx`. -/
def pumpTx (identity : List (BitVec 8)) : Sys :=
  if !x.configured then x
  else if x.txInflight ≠ 0 ∨ x.zlpInflight then x
  else if x.idLeft ≠ 0 then
    let n := min x.idLeft maxPacket
    { x.epIn .identity ((identity.drop (identity.length - x.idLeft)).take n) with
      idInflight := true
      txInflight := n
      txZlp := decide (n = maxPacket)
      idLeft := x.idLeft - n }
  else
    let n := min x.ring.length maxPacket
    if n = 0 then if x.txZlp then { x.epIn .empty [] with zlpInflight := true } else x
    else ({ x.epIn .data (x.ring.take n) with txInflight := n, txZlp := decide (n = maxPacket) } : Sys).ringDrop n

/-- `service_irq`, one step of a pass. The other endpoints have a part in `BUFF_STATUS`. -/
def irq (identity : List (BitVec 8)) (other : Bool) : Sys :=
  match x.pc with
  | .wait => { x with pc := .busReset ⟨x.reset, x.setup.isSome, x.done.isSome || other⟩ }
  | .busReset ev => { if ev.reset then x.onBusReset else x with pc := .setup ev }
  | .setup ev => { if ev.setup then x.onSetup identity else x with pc := .buffers ev }
  | .buffers ev => { if ev.buffer then x.onBuffers else x with pc := .pump }
  | .pump => { x.pumpTx identity with pc := .wait }

end Sys

/-- An action of the service thread, of the bus or of the host, or a step of a pass. -/
inductive Op where
  | push (bytes : List (BitVec 8))
  | reset
  | setup (s : Setup)
  /-- An IN: the host takes the packet that is queued. -/
  | take
  | irq (other : Bool)

def Sys.step (identity : List (BitVec 8)) (x : Sys) : Op → Sys
  | .push bytes =>
    let taken := bytes.take (ringRoom - x.ring.length)
    { x with ring := x.ring ++ taken, log := { x.log with pushed := x.log.pushed ++ taken } }
  | .reset => { x with reset := true }
  | .setup s => { x with setup := some s }
  | .take =>
    match x.buf with
    | some p => { x with buf := none, done := some p.id }
    | none => x
  | .irq other => x.irq identity other

/-- A run whose passes only go on from states that meet `P`. -/
inductive Runs (identity : List (BitVec 8)) (P : Sys → Prop) : Sys → Prop where
  | init : Runs identity P {}
  | step {x : Sys} (op : Op) (hx : Runs identity P x) (hp : ∀ other, op = .irq other → P x) : Runs identity P (x.step identity op)

/-! ### What the transmission is to be -/

/-- The request gives up the packet that is with the controller. -/
def Request.abandons : Request → Bool
  | .configure _ | .clearHalt => true
  | .halt | .other => false

/-- The next step of the pass gives up the packet that is with the controller. -/
def Sys.abandons (x : Sys) : Bool :=
  match x.pc with
  | .busReset ev => ev.reset
  | .setup ev => ev.setup && x.setup.any fun s => (request s).abandons
  | _ => false

def Pc.reported : Pc → Bool
  | .busReset ev | .setup ev | .buffers ev => ev.buffer
  | _ => false

/-- No packet is given up with a completion that came behind the events of the pass. -/
def Prompt (x : Sys) : Prop := x.abandons = true → x.done.isSome = true → x.pc.reported = true

instance (x : Sys) : Decidable (Prompt x) := inferInstanceAs (Decidable (_ → _ → _))

/-- The last of the packets is full, and so the transfer is open. -/
def Full (packets : List Packet) : Prop := ∃ p, packets.getLast? = some p ∧ p.bytes.length = maxPacket

/-- `pump_tx` finds the ring empty. -/
structure FoundEmpty (x : Sys) : Prop where
  configured : x.configured = true
  idle : x.txInflight = 0 ∧ x.zlpInflight = false
  identity : x.idLeft = 0
  ring : x.ring = []

/-- `pump_tx` queues a zero-length packet exactly when it finds the ring empty and the transfer of these packets open. -/
def ZlpRule (identity : List (BitVec 8)) (x : Sys) (packets : List Packet) : Prop :=
  (∃ p, (x.pumpTx identity).log.handed = x.log.handed ++ [p] ∧ p.bytes = []) ↔ FoundEmpty x ∧ Full packets

def bytesOf (packets : List Packet) : List (BitVec 8) := packets.flatMap Packet.bytes

/-- The transmission as it is to be. -/
structure Accounts (identity : List (BitVec 8)) (x : Sys) : Prop where
  /-- No packet is queued while another is with the controller. -/
  one : x.log.replaced = []
  /-- The bytes handed over, but the identity, are those taken from the ring, in their order. -/
  handed : bytesOf (x.log.handed.filter fun p => p.kind ≠ .identity) = x.log.removed ∧ x.log.removed ++ x.ring = x.log.pushed
  /-- A configuration hands over the whole identity before anything else. -/
  opens : x.configured = true → ∃ a b, x.log.stream = a ++ b ∧ (∀ p ∈ a, p.kind = .identity) ∧ (∀ p ∈ b, p.kind ≠ .identity) ∧
    bytesOf a <+: identity ∧ (b ≠ [] → bytesOf a = identity)
  zlp : x.pc = .pump → ZlpRule identity x x.log.session
  balance : x.log.pushed.length = x.ring.length + x.inflight + x.log.completed + x.log.lost
  /-- The counter is the bytes lost, on 32 bits. -/
  lost : x.txLostLink = BitVec.ofNat 32 x.log.lost
  /-- A completion is acted on for its own packet, and never for one that was given up. -/
  acted : ∀ e ∈ x.log.acted, e.1 = e.2 ∧ e.1 ∉ x.log.abandoned

end KickOS.Usb.Bulk
