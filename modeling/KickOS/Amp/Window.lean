import Mathlib.Tactic

/-! The window between the nodes of an AMP partition (`kernel/amp/ampwindow.cc`), as one node keeps it toward one peer:
the two rings it consumes, the records of the calls it holds, and the two rings it fills. A word that the peer owns is
never part of the state. Each load of one is an argument of the operation that makes it, so it may be anything, and
another thing at the next load.

The operations run with the core's interrupts masked, and a service of the node (`node_service`) is a sequence of them.
-/

namespace KickOS.Amp

/-- `KOS_AMP_RING_SLOTS`. -/
def ringSlots : Nat := 4

/-- `KOS_EP_MSG_MAX`. -/
def slotBytes : Nat := 256

/-- `DEPTH_STRIKES`. -/
def depthStrikes : Nat := 4

/-- `DEFER_PASSES`. -/
def deferPasses : Nat := 4

/-- `PORT_ECHO`. -/
def portEcho : BitVec 32 := 0

/-- `PORT_REPLY`. -/
def portReply : BitVec 32 := 1

inductive Class where
  | call | reply
  deriving DecidableEq

inductive Verdict where
  | empty | took | depth | length | port | cls | reserve
  deriving DecidableEq

inductive Sent where
  | ok | full | depth | length | port
  deriving DecidableEq

structure ReplyTag where
  thread : BitVec 32
  seq : BitVec 32
  deriving DecidableEq

/-- `outstanding`. -/
def outstanding (head tail : BitVec 32) : Nat := (head - tail).toNat

/-- The index under `RING_MASK`, of which the table of records is keyed. -/
def slotOf (pos : BitVec 32) : Fin ringSlots := ⟨pos.toNat % ringSlots, Nat.mod_lt _ (by decide)⟩

/-- `class_of`. -/
def classOf (port : BitVec 32) : Class := if port = portReply then .reply else .call

/-- `port_minted`, of this node's row. -/
def portMinted (minted port : BitVec 32) : Bool := port.toNat < 32 && minted.getLsbD port.toNat

/-- A ring this node consumes: the tail, which is its word of the window, its `Inbox`, the strikes against the far head,
the resynchronisations so far, and after how many of these each slot was last taken. -/
structure Inbox where
  tail : BitVec 32
  taken : BitVec 32
  released : BitVec 32 := 0
  strikes : Nat := 0
  resyncs : Nat := 0
  takenAt : BitVec 32 → Nat := fun _ => 0

inductive Pending where
  | none | held | gone
  deriving DecidableEq

/-- `Inbound`, whose slot is its place in the table, with the number of its call, the resynchronisations of the ring
before it was taken, and the deaths of the record. -/
structure Inbound where
  tag : ReplyTag := ⟨0, 0⟩
  badge : BitVec 32 := 0
  gen : BitVec 32 := 0
  live : Bool := false
  pending : Pending := .none
  defers : Nat := 0
  call : Nat := 0
  takenAt : Nat := 0
  deaths : Nat := 0

/-- The token of a record, with the deaths of the record when it was handed out. -/
structure Token where
  slot : Fin ringSlots
  gen : BitVec 16
  deaths : Nat

/-- The hold of a reply slot, with the resynchronisations of the ring when it was handed out. -/
structure Hold where
  slot : Fin ringSlots
  gen : BitVec 16
  takenAt : Nat

/-- A slot that was held is released: the resynchronisations of its ring before its holder took it, and before the slot
was taken. -/
structure Release where
  cls : Class
  holder : Nat
  slot : Nat

/-- What the statements speak of: the slots that were used with the bytes copied, the tokens and the holds handed out,
the calls a reply was sent for, and the releases. -/
structure Log where
  uses : List (Nat × Nat) := []
  tokens : List Token := []
  holds : List Hold := []
  answered : List Nat := []
  releases : List Release := []

/-- What the node keeps of one peer. -/
structure Pair where
  call : Inbox
  reply : Inbox
  /-- `g_reply_gen`. -/
  replyGen : BitVec 16 := 0
  /-- `g_inbound`. -/
  records : Fin ringSlots → Inbound := fun _ => {}
  /-- The heads of the two rings toward the peer. -/
  callHead : BitVec 32
  replyHead : BitVec 32
  tailStrikes : Nat := 0
  /-- The calls taken so far. -/
  calls : Nat := 0
  log : Log := {}

namespace Inbox

variable (ib : Inbox)

def held : Nat := outstanding ib.taken ib.tail

def take : Inbox := { ib with taken := ib.taken + 1, takenAt := Function.update ib.takenAt ib.taken ib.resyncs }

/-- The place in the run that a masked index names. -/
def offOf (slot : Fin ringSlots) : Nat := ((BitVec.ofNat 32 slot.val - ib.tail) &&& 3).toNat

end Inbox

/-- The loop of `release_on`, which passes one slot of the run at a time. -/
def passReleased : Nat → BitVec 32 → BitVec 32 → BitVec 32 → BitVec 32 × BitVec 32
  | 0, _, tail, released => (tail, released)
  | n + 1, taken, tail, released =>
    if released.getLsbD 0 = true ∧ tail ≠ taken then passReleased n taken (tail + 1) (released >>> 1) else (tail, released)

/-- `release_on`, of an index inside the run. -/
def Inbox.free (ib : Inbox) (off : Nat) : Inbox :=
  let r := passReleased ib.held ib.taken ib.tail (ib.released ||| (1#32 <<< off))
  { ib with tail := r.1, released := r.2 }

/-- `record_drop`. -/
def Inbound.drop (r : Inbound) : Inbound := { r with live := false, pending := .none, gen := r.gen + 1, deaths := r.deaths + 1 }

/-- `record_defer`. The token dies as in any other death. -/
def Inbound.defer (r : Inbound) (state : Pending) : Inbound :=
  { r with pending := state, defers := 0, gen := r.gen + 1, deaths := r.deaths + 1 }

namespace Pair

variable (p : Pair)

def setRecord (i : Fin ringSlots) (r : Inbound) : Pair := { p with records := Function.update p.records i r }

def use (slot : Fin ringSlots) (len : Nat) : Pair := { p with log := { p.log with uses := (slot.val, len) :: p.log.uses } }

def answered (call : Nat) : Pair := { p with log := { p.log with answered := call :: p.log.answered } }

/-- `tail_believed`. -/
def tailBelieved (tail : BitVec 32) : Bool × Pair :=
  if outstanding p.replyHead tail ≤ ringSlots then (true, { p with tailStrikes := 0 })
  else if p.tailStrikes + 1 < depthStrikes then (false, { p with tailStrikes := p.tailStrikes + 1 })
  else (true, { p with tailStrikes := 0, replyHead := tail })

def headOf : Class → BitVec 32
  | .call => p.callHead
  | .reply => p.replyHead

def setHead (cls : Class) (head : BitVec 32) : Pair :=
  match cls with
  | .call => { p with callHead := head }
  | .reply => { p with replyHead := head }

/-- `send_on` past the test of the tail. -/
def publish (cls : Class) (tail : BitVec 32) (len : Nat) : Sent × Pair :=
  let head := p.headOf cls
  if ringSlots < outstanding head tail then (.depth, p)
  else if outstanding head tail = ringSlots then (.full, p)
  else (.ok, (p.use (slotOf head) len).setHead cls (head + 1))

/-- `send`, to a peer. -/
def send (port tail : BitVec 32) (len : Nat) : Sent × Pair :=
  if 32 ≤ port.toNat then (.port, p)
  else if slotBytes < len then (.length, p)
  else match classOf port with
    | .call => p.publish .call tail len
    | .reply =>
      if (p.tailBelieved tail).1 then (p.tailBelieved tail).2.publish .reply tail len
      else (.depth, (p.tailBelieved tail).2)

/-- `release_on`. Only a slot that was still held is a release: the bit of another is set already. -/
def releaseCall (slot : Fin ringSlots) (holder : Nat) : Pair :=
  let off := p.call.offOf slot
  if p.call.held ≤ off then p
  else { p with
    call := p.call.free off
    log := { p.log with
      releases := if p.call.released.getLsbD off then p.log.releases
        else ⟨.call, holder, p.call.takenAt (p.call.tail + BitVec.ofNat 32 off)⟩ :: p.log.releases } }

/-- `reply_release_on`. -/
def releaseReply (slot : Fin ringSlots) (holder : Nat) : Pair :=
  let off := p.reply.offOf slot
  if p.reply.held ≤ off then p
  else { p with
    reply := p.reply.free off
    log := { p.log with
      releases := if p.reply.released.getLsbD off then p.log.releases
        else ⟨.reply, holder, p.reply.takenAt (p.reply.tail + BitVec.ofNat 32 off)⟩ :: p.log.releases } }

/-- `record_of`. -/
def recordOf (slot : Fin ringSlots) (gen : BitVec 16) : Option Inbound :=
  let r := p.records slot
  if r.live = true ∧ r.gen.setWidth 16 = gen then some r else none

/-- `record_answer_pair`, one record of it. -/
def answerRecord (tails : Fin ringSlots → BitVec 32) (i : Fin ringSlots) : Pair :=
  let r := p.records i
  if r.live = false then p
  else if r.pending ≠ .none then p.setRecord i { r with pending := .gone }
  else
    let s := p.send portReply (tails i) 0
    if s.1 = .ok then (s.2.answered r.call).setRecord i r.drop else s.2.setRecord i (r.defer .gone)

/-- `record_answer_pair`. -/
def recordAnswerPair (tails : Fin ringSlots → BitVec 32) : Pair :=
  (List.finRange ringSlots).foldl (fun q i => q.answerRecord tails i) p

/-- `depth_ok`'s resynchronisation of a ring. -/
def resync (ib : Inbox) (head : BitVec 32) : Inbox :=
  { ib with tail := head, taken := head, released := 0, strikes := 0, resyncs := ib.resyncs + 1 }

/-- The deeper of the two counts of `depth_ok`. -/
def deepest (ib : Inbox) (head : BitVec 32) : Nat := max (outstanding head ib.tail) (outstanding head ib.taken)

/-- `depth_ok` of the call ring. -/
def callDepthOk (head : BitVec 32) (tails : Fin ringSlots → BitVec 32) : Bool × Pair :=
  if deepest p.call head ≤ ringSlots then (true, { p with call := { p.call with strikes := 0 } })
  else if p.call.strikes + 1 < depthStrikes then (false, { p with call := { p.call with strikes := p.call.strikes + 1 } })
  else (false, ({ p with call := resync p.call head } : Pair).recordAnswerPair tails)

/-- `depth_ok` of the reply ring. -/
def replyDepthOk (head : BitVec 32) : Bool × Pair :=
  if deepest p.reply head ≤ ringSlots then (true, { p with reply := { p.reply with strikes := 0 } })
  else if p.reply.strikes + 1 < depthStrikes then (false, { p with reply := { p.reply with strikes := p.reply.strikes + 1 } })
  else (false, { p with reply := resync p.reply head, replyGen := p.replyGen + 1 })

/-- `slot_ok`. -/
def slotOk (cls : Class) (minted len port : BitVec 32) : Verdict :=
  if slotBytes < len.toNat then .length
  else if portMinted minted port = false then .port
  else if classOf port ≠ cls then .cls
  else .took

/-- `reply_reserved`. -/
def replyReserved (tail : BitVec 32) : Bool × Pair :=
  let gone := (List.finRange ringSlots).countP fun i => (p.records i).pending = .gone
  let replied := (List.finRange ringSlots).countP fun i => p.call.released.getLsbD i.val
  let owed := gone + (p.call.held - replied)
  let q := p.tailBelieved tail
  (q.1 && decide (outstanding q.2.replyHead tail < ringSlots) && decide (owed < ringSlots - outstanding q.2.replyHead tail), q.2)

end Pair

/-- What a take reads of the peer's words: the head, the slot's header, and the tail of the reply ring at each place
that loads it. -/
structure Far where
  head : BitVec 32
  len : BitVec 32
  port : BitVec 32
  tag : ReplyTag
  badge : BitVec 32
  reserveTail : BitVec 32
  answerTails : Fin ringSlots → BitVec 32

namespace Pair

variable (p : Pair)

/-- `take_call`. -/
def takeCall (minted : BitVec 32) (far : Far) : Verdict × Pair :=
  let d := p.callDepthOk far.head far.answerTails
  if d.1 = false then (.depth, d.2)
  else
    let p := d.2
    if outstanding far.head p.call.taken = 0 then (.empty, p)
    else
      let slot := slotOf p.call.taken
      let p := p.use slot 0
      let v := slotOk .call minted far.len far.port
      if v ≠ .took then (v, ({ p with call := p.call.take } : Pair).releaseCall slot p.call.resyncs)
      else
        let r := p.replyReserved far.reserveTail
        if r.1 = false then (.reserve, r.2)
        else (.took, { r.2 with call := r.2.call.take, calls := r.2.calls + 1 })

/-- `inbound_seat`, where no record stands in the place. -/
def seat (slot : Fin ringSlots) (tag : ReplyTag) (badge : BitVec 32) (call : Nat) : Pair :=
  let r := p.records slot
  let q := p.setRecord slot { r with tag := tag, badge := badge, live := true, call := call, takenAt := p.call.resyncs }
  { q with log := { q.log with tokens := ⟨slot, r.gen.setWidth 16, r.deaths⟩ :: q.log.tokens } }

/-- `dispatch_call`, with the release of a call that became no record: `bound` where the port is an endpoint's, and
`ready` where it receives and a receiver waits. -/
def dispatchCall (far : Far) (slot : Fin ringSlots) (call : Nat) (bound ready : Bool) (tail : BitVec 32) : Pair :=
  if bound = true ∧ ready = true ∧ (p.records slot).live = false then p.seat slot far.tag far.badge call
  else
    let len := if bound = false ∧ far.port = portEcho then far.len.toNat else 0
    let s := (p.use slot len).send portReply tail len
    (if s.1 = .ok then s.2.answered call else s.2).releaseCall slot p.call.resyncs

/-- One call of `node_service`. -/
def serveCall (minted : BitVec 32) (far : Far) (bound ready : Bool) (tail : BitVec 32) : Pair :=
  let t := p.takeCall minted far
  if t.1 = .took then t.2.dispatchCall far (slotOf (t.2.call.taken - 1)) (t.2.calls - 1) bound ready tail else t.2

/-- `take_reply` and `dispatch_reply`, one reply of `node_service`: `lands` where the tag names a parked caller. -/
def serveReply (minted : BitVec 32) (far : Far) (lands : Bool) : Pair :=
  let unread := outstanding far.head p.reply.taken
  if outstanding far.head p.reply.tail = 0 ∧ unread = 0 then p
  else
    let d := p.replyDepthOk far.head
    if d.1 = false ∨ unread = 0 then d.2
    else
      let slot := slotOf d.2.reply.taken
      let q := ({ d.2 with reply := d.2.reply.take } : Pair).use slot 0
      if slotOk .reply minted far.len far.port = .took ∧ lands = true then
        { q with log := { q.log with holds := ⟨slot, q.replyGen, q.reply.resyncs⟩ :: q.log.holds } }
      else q.releaseReply slot q.reply.resyncs

/-- `answer_deferred` of one record, and whether the walk goes on. -/
def answerOne (tail : BitVec 32) (i : Fin ringSlots) : Pair × Bool :=
  let r := p.records i
  if r.pending = .none then (p, true)
  else
    let s := p.send portReply tail 0
    let r := if s.1 = .ok then r else { r with defers := r.defers + 1 }
    if s.1 ≠ .ok ∧ r.defers < deferPasses then (s.2.setRecord i r, false)
    else
      let q := (if s.1 = .ok then s.2.answered r.call else s.2).setRecord i r.drop
      (if r.pending = .gone then q else q.releaseCall i r.takenAt, true)

/-- `answer_deferred`, over the places that are left. -/
def answerDeferredOn (tails : Fin ringSlots → BitVec 32) : List (Fin ringSlots) → Pair → Pair
  | [], q => q
  | i :: rest, q =>
    if (q.answerOne (tails i) i).2 then answerDeferredOn tails rest (q.answerOne (tails i) i).1 else
      (q.answerOne (tails i) i).1

/-- `answer_deferred`. -/
def answerDeferred (tails : Fin ringSlots → BitVec 32) : Pair := answerDeferredOn tails (List.finRange ringSlots) p

/-- `inbound_forget`. -/
def inboundForget (slot : Fin ringSlots) (gen : BitVec 16) : Pair :=
  match p.recordOf slot gen with
  | none => p
  | some r => p.setRecord slot r.drop

/-- `inbound_reply`. -/
def inboundReply (slot : Fin ringSlots) (gen : BitVec 16) (len : Nat) (tail : BitVec 32) : Pair :=
  match p.recordOf slot gen with
  | none => p
  | some r =>
    let s := p.send portReply tail len
    if s.1 = .ok then ((s.2.answered r.call).setRecord slot r.drop).releaseCall slot r.takenAt
    else s.2.setRecord slot (r.defer .held)

/-- `hold_live`, of a reply's hold. -/
def holdLive (h : Hold) : Bool :=
  h.gen = p.replyGen && decide (p.reply.offOf h.slot < p.reply.held) && !p.reply.released.getLsbD (p.reply.offOf h.slot)

/-- `hold_release`, of a reply's hold. -/
def holdRelease (h : Hold) : Pair := if h.gen ≠ p.replyGen then p else p.releaseReply h.slot h.takenAt

/-- `far_hold_copy`: the bytes of a slot that is held. -/
def holdCopy (live : Bool) (slot : Fin ringSlots) (n : Nat) : Pair := if slotBytes < n ∨ live = false then p else p.use slot n

end Pair

inductive Op where
  | serveCall (far : Far) (bound ready : Bool) (tail : BitVec 32)
  | serveReply (far : Far) (lands : Bool)
  | answerDeferred (tails : Fin ringSlots → BitVec 32)
  | inboundReply (slot : Fin ringSlots) (gen : BitVec 16) (len : Nat) (tail : BitVec 32)
  | inboundForget (slot : Fin ringSlots) (gen : BitVec 16)
  | holdRelease (h : Hold)
  | copyCall (slot : Fin ringSlots) (gen : BitVec 16) (n : Nat)
  | copyReply (h : Hold) (n : Nat)
  | sendCall (port tail : BitVec 32) (len : Nat)

def Op.Held (p : Pair) : Op → Prop
  | .holdRelease h => h ∈ p.log.holds
  | .copyReply h _ => h ∈ p.log.holds
  | _ => True

def Pair.step (p : Pair) (minted : BitVec 32) : Op → Pair
  | .serveCall far bound ready tail => p.serveCall minted far bound ready tail
  | .serveReply far lands => p.serveReply minted far lands
  | .answerDeferred tails => p.answerDeferred tails
  | .inboundReply slot gen len tail => p.inboundReply slot gen len tail
  | .inboundForget slot gen => p.inboundForget slot gen
  | .holdRelease h => p.holdRelease h
  | .copyCall slot gen n => p.holdCopy (p.recordOf slot gen).isSome slot n
  | .copyReply h n => p.holdCopy (p.holdLive h) h.slot n
  | .sendCall port tail len => (p.send port tail len).2

/-- What `window_init` leaves toward one peer. The tails may be left of an earlier start, and the heads are read from
the window. -/
structure Pair.Booted (p : Pair) : Prop where
  call : p.call = { tail := p.call.tail, taken := p.call.tail }
  reply : p.reply = { tail := p.reply.tail, taken := p.reply.tail }
  rest : p = { call := p.call, reply := p.reply, callHead := p.callHead, replyHead := p.replyHead }

/-- The node, with what it keeps of each peer. -/
structure Node where
  toward : Nat → Pair

/-- What the node comes to over a run, of operations each toward one peer. -/
inductive Node.Reachable (minted : BitVec 32) : Node → Prop
  | boot {n : Node} (h : ∀ peer, (n.toward peer).Booted) : Node.Reachable minted n
  | step {n : Node} (h : Node.Reachable minted n) (peer : Nat) {o : Op} (hheld : o.Held (n.toward peer)) :
    Node.Reachable minted ⟨Function.update n.toward peer ((n.toward peer).step minted o)⟩

end KickOS.Amp
