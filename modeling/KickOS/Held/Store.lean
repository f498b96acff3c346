import KickOS.Lib.Buffer

/-! The store of held console records (`kernel/init/console_tx.cc`).

A disarmed ring's buffer keeps the kernel's records until the console's driver reads them: committed records, each a
16-bit length and its bytes, and behind them the entries of the records still open, interleaved. Every position is a
32-bit count below the buffer's size, and every sum the code makes of them stays below it too, so positions are plain
numbers here. The hooks a host test sets, and the mark a panic reads before it writes the store out, change nothing
these operations read. -/

namespace KickOS
namespace Held

open Lib.Buffer

abbrev Byte := BitVec 8

abbrev Key := BitVec 32

/-- `HELD_HEADER`: the length in front of a committed record. -/
def header : Nat := 2

/-- `HELD_LINE`: the id and the length in front of a line. -/
def lineHeader : Nat := 2

/-- `HELD_MARK`: the entry that opens a record. -/
def mark : Nat := 6

/-- `HELD_FULL`, in a marker's id byte. -/
def full : Byte := 0x80

/-- `HELD_ID_COUNT`. -/
def idCount : Nat := 128

/-- What the operations read of the ring. -/
structure Store where
  buf : Nat → Byte
  size : Nat
  /-- `buf != nullptr`. -/
  present : Bool
  armed : Bool
  heldHead : Nat
  heldTail : Nat
  heldTaken : Nat
  heldOpen : Nat

/-! ### Reading the buffer -/

section read

variable (b : Nat → Byte)

def heldLen (place : Nat) : Nat := (b place).toNat ||| ((b (place + 1)).toNat <<< 8)

def heldIsMark (place : Nat) : Bool := b (place + 1) = 0

/-- `held_fit`: the size of the open entry, or 0 where it does not fit. -/
def heldFit (place fin : Nat) : Nat :=
  if fin ≤ place ∨ fin - place < lineHeader then 0
  else
    let size := if heldIsMark b place then mark else lineHeader + (b (place + 1)).toNat
    if fin - place < size then 0 else size

/-- `HeldWalk`: the entries of `[place, fin)` that fit, with their sizes. -/
def heldWalk (fin : Nat) : Nat → Nat → List (Nat × Nat)
  | 0, _ => []
  | fuel + 1, place =>
    if heldFit b place fin = 0 then [] else (place, heldFit b place fin) :: heldWalk fin fuel (place + heldFit b place fin)

def heldRecordFits (place fin : Nat) : Bool :=
  decide (place < fin) && decide (header ≤ fin - place) && decide (heldLen b place ≤ fin - place - header)

def heldId (place : Nat) : Byte := b place &&& ~~~full

def heldKeyAt (place : Nat) : Key :=
  (b (place + 2)).setWidth 32 ||| ((b (place + 3)).setWidth 32 <<< 8) ||| ((b (place + 4)).setWidth 32 <<< 16) |||
    ((b (place + 5)).setWidth 32 <<< 24)

end read

namespace Store

variable (r : Store)

def walk : List (Nat × Nat) := heldWalk r.buf r.heldHead r.heldHead r.heldOpen

/-- `held_mark`: the marker that answers, or `heldHead` for none. -/
def heldMark (sought : Nat → Bool) : Nat :=
  match r.walk.find? fun w => heldIsMark r.buf w.1 && sought w.1 with
  | some w => w.1
  | none => r.heldHead

/-- The marker of the open record with this key. -/
def heldMarkKey (key : Key) : Nat := r.heldMark fun place => heldKeyAt r.buf place = key

/-- The marker of the open record with this id. -/
def heldMarkId (id : Byte) : Nat := r.heldMark fun place => heldId r.buf place = id

def heldRecordBytes (id : Byte) : Nat :=
  r.walk.foldl (fun bytes w => if !heldIsMark r.buf w.1 && heldId r.buf w.1 = id then bytes + w.2 - lineHeader else bytes) 0

/-! ### Settling -/

/-- The records the reader has taken whole. -/
def settleLoop : Nat → Store → Store
  | 0, r => r
  | fuel + 1, r =>
    if r.heldTail = r.heldOpen then r
    else if !heldRecordFits r.buf r.heldTail r.heldOpen then { r with heldTail := r.heldOpen, heldTaken := 0 }
    else if r.heldTaken ≠ heldLen r.buf r.heldTail then r
    else settleLoop fuel { r with heldTail := r.heldTail + header + heldLen r.buf r.heldTail, heldTaken := 0 }

/-- The open entries moved down to the start once nothing is in front of them. -/
def settleMove : Store :=
  if r.heldTail = r.heldOpen ∧ r.heldTail ≠ 0 then
    { r with
      buf := moveDown r.buf 0 r.heldOpen (r.heldHead - r.heldOpen)
      heldHead := r.heldHead - r.heldOpen
      heldOpen := 0
      heldTail := 0 }
  else r

def heldSettle : Store := (settleLoop (r.heldOpen + 1) r).settleMove

/-! ### Operations -/

/-- The entries of other records, moved down one after the other. -/
def dropLoop (id : Byte) (fin : Nat) : Nat → (Nat → Byte) → Nat → Nat → (Nat → Byte) × Nat
  | 0, b, dst, _ => (b, dst)
  | fuel + 1, b, dst, place =>
    let size := heldFit b place fin
    if size = 0 then (b, dst)
    else if heldId b place ≠ id then dropLoop id fin fuel (moveDown b dst place size) (dst + size) (place + size)
    else dropLoop id fin fuel b dst (place + size)

def heldDrop (id : Byte) : Store :=
  let d := dropLoop id r.heldHead r.heldHead r.buf r.heldOpen r.heldOpen
  { r with buf := d.1, heldHead := d.2 }

/-- The first id that no marker has, or `idCount`. -/
def freeId : Nat → Nat → Nat
  | 0, id => id
  | fuel + 1, id => if id ≠ idCount ∧ r.heldMarkId (BitVec.ofNat 8 id) ≠ r.heldHead then freeId fuel (id + 1) else id

def keyBytes (key : Key) : List Byte :=
  [key.setWidth 8, (key >>> 8).setWidth 8, (key >>> 16).setWidth 8, (key >>> 24).setWidth 8]

/-- A marker for the key, where the store has an id and the room for one. -/
def openRecord (key : Key) : Option Store :=
  let id := r.freeId idCount 0
  if id = idCount ∨ r.size - r.heldHead < mark then none
  else
    some
      { r with
        buf := putAll r.buf r.heldHead (BitVec.ofNat 8 id :: 0 :: keyBytes key)
        heldHead := r.heldHead + mark }

/-- The line behind the record's others, or the record marked full. -/
def addLine (place : Nat) (line : List Byte) (max : Nat) : Store :=
  if r.buf place &&& full ≠ 0 ∨ line = [] then r
  else
    let id := heldId r.buf place
    if 0xFF < line.length ∨ max < r.heldRecordBytes id + line.length ∨ r.size - r.heldHead < lineHeader + line.length then
      { r with buf := put r.buf place (r.buf place ||| full) }
    else
      { r with
        buf := putAll r.buf r.heldHead (id :: BitVec.ofNat 8 line.length :: line)
        heldHead := r.heldHead + lineHeader + line.length }

/-- `console_held_append`. -/
def consoleHeldAppend (key : Key) (line : List Byte) (max : Nat) : Store × Nat :=
  if r.armed ∨ !r.present then (r, 0)
  else
    let place := r.heldMarkKey key
    if place = r.heldHead then
      match r.openRecord key with
      | none => (r, 0)
      | some s => (s.addLine place line max, 1)
    else (r.addLine place line max, 1)

/-- The record's entries gathered in front of the others', each rotated down over those it passes. -/
def gatherLoop (id : Byte) (fin : Nat) : Nat → (Nat → Byte) → Nat → Nat → (Nat → Byte) × Nat
  | 0, b, gathered, _ => (b, gathered)
  | fuel + 1, b, gathered, place =>
    let size := heldFit b place fin
    if size = 0 then (b, gathered)
    else if heldId b place = id then
      gatherLoop id fin fuel (rotate b gathered place (place + size)) (gathered + size) (place + size)
    else gatherLoop id fin fuel b gathered (place + size)

/-- The bytes of the gathered lines, behind one another. -/
def stripLoop (fin : Nat) : Nat → (Nat → Byte) → Nat → Nat → (Nat → Byte) × Nat
  | 0, b, dst, _ => (b, dst)
  | fuel + 1, b, dst, place =>
    let size := heldFit b place fin
    if size = 0 then (b, dst)
    else if !heldIsMark b place then
      stripLoop fin fuel (moveDown b dst (place + lineHeader) (size - lineHeader)) (dst + size - lineHeader) (place + size)
    else stripLoop fin fuel b dst (place + size)

/-- The record's lines behind the committed ones. -/
def commitRecord (id : Byte) : Store :=
  let g := gatherLoop id r.heldHead r.heldHead r.buf r.heldOpen r.heldOpen
  let d := stripLoop g.2 r.heldHead g.1 (r.heldOpen + header) r.heldOpen
  let len := d.2 - r.heldOpen - header
  let dst := if len = 0 then r.heldOpen else d.2
  let b := moveDown d.1 dst g.2 (r.heldHead - g.2)
  let head := r.heldHead - (g.2 - dst)
  if len ≠ 0 then
    { r with buf := putAll b r.heldOpen [BitVec.ofNat 8 len, BitVec.ofNat 8 (len >>> 8)], heldHead := head, heldOpen := dst }
  else { r with buf := b, heldHead := head }

/-- `console_held_commit`. -/
def consoleHeldCommit (key : Key) : Store × Nat :=
  let place := r.heldMarkKey key
  if place = r.heldHead then (r, 0) else ((r.commitRecord (heldId r.buf place)).heldSettle, 1)

/-- `console_held_abandon`. -/
def consoleHeldAbandon (key : Key) : Store :=
  let place := r.heldMarkKey key
  if place = r.heldHead then r else (r.heldDrop (heldId r.buf place)).heldSettle

/-- `console_held_ready`. -/
def consoleHeldReady : Nat :=
  if !heldRecordFits r.buf r.heldTail r.heldOpen ∨ heldLen r.buf r.heldTail ≤ r.heldTaken then 0
  else heldLen r.buf r.heldTail - r.heldTaken

/-- `console_held_data`, as far as a reader may go. -/
def consoleHeldData : List Byte := slice r.buf (r.heldTail + header + r.heldTaken) r.consoleHeldReady

/-- `console_held_take`. -/
def consoleHeldTake (n : Nat) : Store := { r with heldTaken := r.heldTaken + n }.heldSettle

end Store

/-! ### Runs -/

inductive Op where
  | append (key : Key) (line : List Byte) (max : Nat)
  | commit (key : Key)
  | abandon (key : Key)
  | take (n : Nat)
  deriving DecidableEq, Repr

/-- What a call answers, and what a reader then finds. -/
structure Answer where
  code : Nat
  ready : Nat
  shown : List Byte
  deriving DecidableEq, Repr

namespace Store

variable (r : Store)

def step : Op → Store × Nat
  | .append key line max => r.consoleHeldAppend key line max
  | .commit key => r.consoleHeldCommit key
  | .abandon key => (r.consoleHeldAbandon key, 0)
  | .take n => (r.consoleHeldTake n, 0)

/-- A record's cap fits its length field, and a reader takes no more than it is shown. -/
def Admits : Op → Prop
  | .append _ _ max => max < 65536
  | .commit _ => True
  | .abandon _ => True
  | .take n => n ≤ r.consoleHeldReady

instance : DecidablePred r.Admits
  | .append _ _ max => inferInstanceAs (Decidable (max < 65536))
  | .commit _ => inferInstanceAs (Decidable True)
  | .abandon _ => inferInstanceAs (Decidable True)
  | .take n => inferInstanceAs (Decidable (n ≤ r.consoleHeldReady))

/-- Every call of the sequence is admitted where it is made. -/
def AdmitsAll : Store → List Op → Prop
  | _, [] => True
  | r, op :: ops => r.Admits op ∧ AdmitsAll (r.step op).1 ops

instance decidableAdmitsAll : (r : Store) → (ops : List Op) → Decidable (r.AdmitsAll ops)
  | _, [] => inferInstanceAs (Decidable True)
  | r, op :: ops => @instDecidableAnd _ _ (inferInstanceAs (Decidable (r.Admits op))) (decidableAdmitsAll (r.step op).1 ops)

/-- The store after a sequence of calls. -/
def run : Store → List Op → Store
  | r, [] => r
  | r, op :: ops => run (r.step op).1 ops

/-- What the calls answer, each with what a reader then finds. -/
def answers : Store → List Op → List Answer
  | _, [] => []
  | r, op :: ops =>
    let s := (r.step op).1
    ⟨(r.step op).2, s.consoleHeldReady, s.consoleHeldData⟩ :: answers s ops

/-- Nothing held, whatever the buffer has in it. -/
structure Fresh : Prop where
  head : r.heldHead = 0
  tail : r.heldTail = 0
  taken : r.heldTaken = 0
  opened : r.heldOpen = 0

end Store
end Held
end KickOS
