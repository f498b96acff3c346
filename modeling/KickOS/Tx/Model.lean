import KickOS.Lib.Wrapped

/-! The kernel's transmit ring (`kernel/init/console_tx.cc`), between the arming and the disarming of it: the lines that
are inserted, and the drains of the transmit interrupt, of the producers and of the synchronous flush.

A section under the lock is one step. Two of them are cut in two, where a context that the mask does not stop may get in
between: the copy of a line, which ends where the head moves, and the push of a producer's drain, for which it has taken
the byte already. What the device answers, a free slot or none, is an argument. -/

namespace KickOS.Tx
open Function (update)

def cr : BitVec 8 := 13

def lf : BitVec 8 := 10

/-- A line, and whether its line ends are expanded. -/
structure Line where
  bytes : List (BitVec 8)
  crlf : Bool

/-- What a character of a line is on the wire. -/
def cookByte (crlf : Bool) (b : BitVec 8) : List (BitVec 8) := if crlf = true ∧ b = lf then [cr, b] else [b]

/-- The line with its line ends expanded. -/
def Line.cooked (l : Line) : List (BitVec 8) := l.bytes.flatMap (cookByte l.crlf)

/-- `console_tx_line_needed`. -/
def lineNeeded (l : Line) : Nat := l.bytes.length + if l.crlf then l.bytes.count lf else 0

/-- What `console_tx_init` is given: the size of the ring, and whether the chip has a transmit interrupt. -/
structure Config where
  bits : Nat
  bits_lt : bits < 32
  irq : Bool

namespace Config

variable (c : Config)

def size : Nat := 2 ^ c.bits

def mask : BitVec 32 := BitVec.ofNat 32 (c.size - 1)

def inc (i : BitVec 32) : BitVec 32 := (i + 1) &&& c.mask

end Config

/-- An insert between its copy and the move of the head: the index behind the line, whether the ring was empty, and the
producer, where it is not the empty line of a re-prime. -/
structure Copy where
  line : Line
  idx : BitVec 32
  wasEmpty : Bool
  producer : Option Nat

/-- Up to where a producer drains: the count of the code, and the bytes since the arming that it stands for. -/
structure UpTo where
  count : BitVec 32
  bytes : Nat

/-- A producer's drain in its push, with the byte it has taken. -/
structure Push where
  producer : Nat
  upTo : UpTo
  byte : BitVec 8

/-- Where a producer is. -/
inductive Pc where
  | idle
  | drain (upTo : UpTo)
  | wait (upTo : UpTo)
  | push
  | wedged

/-- What the statements speak of: the lines accepted, the bytes that were pushed, the bytes that left the ring (pushed,
or discarded), and the polls that gave up. -/
structure Log where
  accepted : List Line := []
  wire : List (BitVec 8) := []
  gone : List (BitVec 8 × Bool) := []
  gaveUp : Nat := 0

/-- `ConsoleTxRing`. `inserting` and `pushing` hold the locals of the section that set them, and `carry` is none where
`carried` is false. -/
structure Ring where
  cell : Nat → BitVec 8
  head : BitVec 32 := 0
  tail : BitVec 32 := 0
  inserting : Option Copy := none
  queued : BitVec 32 := 0
  roomWanted : BitVec 32 := 0
  pushing : Option Push := none
  carry : Option UpTo := none
  irqOn : Bool := false
  pc : Nat → Pc := fun _ => .idle
  log : Log := {}

/-- The copy of a line, a byte at a time. -/
def copyLine (c : Config) (crlf : Bool) : List (BitVec 8) → (Nat → BitVec 8) → BitVec 32 → (Nat → BitVec 8) × BitVec 32
  | [], cell, idx => (cell, idx)
  | b :: rest, cell, idx =>
    if crlf = true ∧ b = lf then
      copyLine c crlf rest (update (update cell idx.toNat cr) (c.inc idx).toNat b) (c.inc (c.inc idx))
    else copyLine c crlf rest (update cell idx.toNat b) (c.inc idx)

namespace Ring

variable (c : Config) (x : Ring)

def used : BitVec 32 := (x.head - x.tail) &&& c.mask

def space : Nat := c.size - 1 - (x.used c).toNat

/-- The bytes from the tail to the head. -/
def held : List (BitVec 8) := (List.range (x.used c).toNat).map fun k => x.cell ((x.tail.toNat + k) % c.size)

/-- The bytes of the accepted lines, in the order they were accepted. -/
def stream : List (BitVec 8) := x.log.accepted.flatMap Line.cooked

def upToNow : UpTo := ⟨x.queued, x.stream.length⟩

/-- The byte a producer has taken and not pushed. -/
def inHand : List (BitVec 8) := (x.pushing.map Push.byte).toList

def setPc (i : Nat) (pc : Pc) : Ring := { x with pc := update x.pc i pc }

/-- `push`. -/
def push (b : BitVec 8) : Ring := { x with log := { x.log with wire := x.log.wire ++ [b], gone := x.log.gone ++ [(b, true)] } }

def take : Ring := { x with tail := c.inc x.tail }

/-- The byte at the tail is pushed and taken. -/
def sendTail : Ring := (x.push (x.cell x.tail.toNat)).take c

def discard : Ring := { x with tail := x.head, log := { x.log with gone := x.log.gone ++ (x.held c).map fun b => (b, false) } }

/-- `insert_locked` up to the end of the copy. -/
def beginInsert (l : Line) (producer : Option Nat) : Ring :=
  if x.inserting.isSome = true ∨ x.space c < lineNeeded l then x
  else
    let r := copyLine c l.crlf l.bytes x.cell x.head
    { x with cell := r.1, inserting := some ⟨l, r.2, x.used c = 0, producer⟩ }

/-- `insert_locked` from the move of the head on. -/
def endInsert (slotFree : Bool) : Ring :=
  match x.inserting with
  | none => x
  | some p =>
    let y := { x with
      queued := x.queued + ((p.idx - x.head) &&& c.mask)
      head := p.idx
      inserting := none
      irqOn := true
      log := { x.log with accepted := x.log.accepted ++ [p.line] } }
    let y := if (p.wasEmpty = true ∨ p.line.bytes = []) ∧ y.pushing.isNone = true ∧ p.idx ≠ y.tail ∧
        slotFree = true then y.sendTail c else y
    match p.producer with
    | none => y
    | some i => y.setPc i (.drain y.upToNow)

/-- `drain_in_producer`, one section of the loop. -/
def drainStep (i : Nat) (slotFree : Bool) : Ring :=
  match x.pc i with
  | .drain upTo =>
    if x.pushing.isSome = true then { x.setPc i .idle with carry := some x.upToNow }
    else if c.irq = true ∨ (x.queued - x.used c - upTo.count).msb = false then x.setPc i .idle
    else if slotFree = true then { x.take c with pushing := some ⟨i, upTo, x.cell x.tail.toNat⟩, pc := update x.pc i .push }
    else x.setPc i (.wait upTo)
  | _ => x

/-- The push of `drain_in_producer`, and what follows it in the section. -/
def endPush : Ring :=
  match x.pushing with
  | none => x
  | some p => { x.push p.byte with pushing := none, carry := none, pc := update x.pc p.producer (.drain (x.carry.getD p.upTo)) }

/-- The poll of `drain_in_producer`, outside the lock. -/
def pollSlot (i : Nat) (found : Bool) : Ring :=
  match x.pc i with
  | .wait upTo =>
    if found = true then x.setPc i (.drain upTo)
    else { x.setPc i .wedged with log := { x.log with gaveUp := x.log.gaveUp + 1 } }
  | _ => x

/-- `drain_in_producer`, where the poll gave up. -/
def giveUp (i : Nat) : Ring :=
  match x.pc i with
  | .wedged => (x.discard c).setPc i .idle
  | _ => x

/-- `console_tx_make_room`. -/
def makeRoom (i : Nat) (needed : BitVec 32) : Ring :=
  if needed.toNat ≤ x.space c ∨ c.irq = true then x
  else x.setPc i (.drain ⟨x.queued - x.used c + (needed - BitVec.ofNat 32 (x.space c)),
    x.stream.length - (x.used c).toNat + (needed.toNat - x.space c)⟩)

/-- `console_tx_room_want`. -/
def roomWant (needed : BitVec 32) : Ring :=
  if needed.toNat ≤ x.space c then x else if x.roomWanted < needed then { x with roomWanted := needed } else x

/-- The loop of the two drains that push what the ring holds, for as long as a slot comes free: `n` times. -/
def sendSome : Nat → Ring → Ring
  | 0, y => y
  | n + 1, y => if y.tail = y.head then y else sendSome n (y.sendTail c)

/-- `console_tx_isr`, which finds `n` slots free. -/
def isr (n : Nat) : Ring :=
  let y := x.sendSome c n
  let y := if y.tail = y.head then { y with irqOn := false } else y
  if y.roomWanted ≠ 0 ∧ y.roomWanted.toNat ≤ y.space c then { y with roomWanted := 0 } else y

/-- `console_tx_flush_sync`, which gets `n` slots before a poll gives up. -/
def flushSync (n : Nat) : Ring :=
  let y := sendSome c n { x with irqOn := false }
  if y.tail = y.head then y else { y.discard c with log := { (y.discard c).log with gaveUp := y.log.gaveUp + 1 } }

/-- `console_tx_reprime`, up to the end of its empty copy. -/
def reprime : Ring := if x.used c = 0 then x else x.beginInsert c ⟨[], false⟩ none

end Ring

inductive Op where
  | insertLine (i : Nat) (l : Line)
  | endInsert (slotFree : Bool)
  | drainStep (i : Nat) (slotFree : Bool)
  | endPush
  | pollSlot (i : Nat) (found : Bool)
  | giveUp (i : Nat)
  | makeRoom (i : Nat) (needed : BitVec 32)
  | roomWant (needed : BitVec 32)
  | isr (n : Nat)
  | flushSync (n : Nat)
  | reprime

/-- When a step may be taken: the drains that take the lock wait for a producer's push, and the callers give lines that
the ring can take. -/
def Op.Legal (c : Config) (x : Ring) : Op → Prop
  | .insertLine i l => x.pc i = .idle ∧ l.bytes ≠ [] ∧ 2 * l.bytes.length < 2 ^ 32
  | .makeRoom i needed => x.pc i = .idle ∧ needed.toNat < c.size
  | .giveUp _ => x.pushing = none
  | .isr _ => x.pushing = none
  | .flushSync _ => x.pushing = none
  | _ => True

/-- No producer's drain is overtaken: when it looks, fewer than 2^31 bytes have left the ring past what it drains up to. -/
def Op.Timely (x : Ring) : Op → Prop
  | .drainStep i _ => ∀ upTo, x.pc i = .drain upTo → x.log.gone.length < upTo.bytes + 2 ^ 31
  | _ => True

def Ring.step (c : Config) (x : Ring) : Op → Ring
  | .insertLine i l => x.beginInsert c l (some i)
  | .endInsert slotFree => x.endInsert c slotFree
  | .drainStep i slotFree => x.drainStep c i slotFree
  | .endPush => x.endPush
  | .pollSlot i found => x.pollSlot i found
  | .giveUp i => x.giveUp c i
  | .makeRoom i needed => x.makeRoom c i needed
  | .roomWant needed => x.roomWant c needed
  | .isr n => x.isr c n
  | .flushSync n => x.flushSync c n
  | .reprime => x.reprime c

/-- What the ring comes to over a run, from its arming on, in which no producer's drain is overtaken. -/
inductive Reachable (c : Config) : Ring → Prop
  | init (cell : Nat → BitVec 8) : Reachable c { cell := cell }
  | step {x : Ring} (h : Reachable c x) {o : Op} (ho : o.Legal c x) (htimely : o.Timely x) : Reachable c (x.step c o)

end KickOS.Tx
