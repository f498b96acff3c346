import Mathlib.Tactic

/-! The wall clock (`kernel/time/realtime.cc`): one record for each node, written by its own node alone and read by all.

A set writes the value that `seq` does not name, then moves `seq` to it. A reader takes the value between two loads of
`seq`. Every load and every store of a word is a step of its own. Beside the words the state keeps, for the statements
only, what each set published, and in each scan how many sets of each record were published when it began. -/

namespace KickOS.Realtime
open Function (update)

/-- `WallValue`. -/
structure WallValue where
  gen : BitVec 32 := 0
  lo : BitVec 32 := 0
  hi : BitVec 32 := 0
  deriving DecidableEq

structure WallSet where
  seq : BitVec 32 := 0
  value : Bool → WallValue := fun _ => {}

/-- The value a `seq` names. -/
def parity (seq : BitVec 32) : Bool := seq.getLsbD 0

structure WallRead where
  gen : BitVec 32 := 0
  offset : BitVec 64 := 0
  deriving DecidableEq

/-- `kos_u64_join`. -/
def join (lo hi : BitVec 32) : BitVec 64 := hi ++ lo

/-- `kos_u64_lo`, `kos_u64_hi`. -/
def lo (offset : BitVec 64) : BitVec 32 := offset.setWidth 32

def hi (offset : BitVec 64) : BitVec 32 := (offset >>> 32).setWidth 32

/-- `PEER_TRIES`. -/
def peerTries : Nat := 4

/-- The next load of `wall_read`, with what it has loaded. -/
inductive Stage where
  | seq
  | gen (seq : BitVec 32)
  | lo (seq gen : BitVec 32)
  | hi (seq gen lo : BitVec 32)
  | again (seq gen lo hi : BitVec 32)
  deriving DecidableEq

/-- `wall_newest`: its own record is read first, then the others in order. -/
structure Scan where
  self : Nat
  own : Bool := true
  /-- The record that is read. -/
  slot : Nat
  tries : Nat := 0
  stage : Stage := .seq
  best : WallRead := {}
  bestNode : Nat := 0
  /-- The sets of each record that were published when the scan began. -/
  start : Nat → Nat
  /-- Those of the record that is read when its `seq` was loaded. -/
  stamp : Nat := 0
  /-- Which set of its record the best one is. -/
  bestStamp : Nat := 0

namespace Scan

def begin (self : Nat) (start : Nat → Nat) : Scan := { self, slot := self, start }

/-- The loop goes on at record `i`, past its own. -/
def next (s : Scan) (i : Nat) : Scan :=
  { s with own := false, slot := if i = s.self then i + 1 else i, tries := 0, stage := .seq }

def took (s : Scan) (r : WallRead) : Scan :=
  if s.own then { s with best := r, bestNode := s.self, bestStamp := s.stamp }.next 0
  else if s.best.gen < r.gen ∨ r.gen = s.best.gen ∧ s.bestNode < s.slot then
    { s with best := r, bestNode := s.slot, bestStamp := s.stamp }.next (s.slot + 1)
  else s.next (s.slot + 1)

/-- A record moved under the read: its own is read with no bound, another's is passed after the last try. -/
def missed (s : Scan) : Scan :=
  if s.own ∨ s.tries + 1 < peerTries then { s with tries := s.tries + 1, stage := .seq } else s.next (s.slot + 1)

/-- `wall_newest` has its answer. -/
def finished (sets : Nat) (s : Scan) : Bool := !s.own && decide (sets ≤ s.slot)

/-- The next load, of the record `w` after `count` sets of it; fewer than `2 ^ 32` of them are published in between two
loads of its `seq`. -/
def load (sets : Nat) (w : WallSet) (count : Nat) (s : Scan) : Option Scan :=
  match s.stage with
  | .seq => some { s with stage := .gen w.seq, stamp := count }
  | .gen seq => some { s with stage := .lo seq (if 1 < sets then (w.value (parity seq)).gen else 0) }
  | .lo seq gen => some { s with stage := .hi seq gen (w.value (parity seq)).lo }
  | .hi seq gen lo => some { s with stage := .again seq gen lo (w.value (parity seq)).hi }
  | .again seq gen lo hi =>
    if count < s.stamp + 2 ^ 32 then some (if w.seq = seq then s.took ⟨gen, join lo hi⟩ else s.missed) else none

end Scan

/-- A set as it was published, with the sets of each record that were published when it began. -/
structure Published where
  gen : BitVec 32 := 0
  offset : BitVec 64 := 0
  prior : Nat → Nat := fun _ => 0

/-- Where `realtime_set` is: in its scan, or in front of the load of its own `seq` or of a store. -/
inductive Setter where
  | idle
  | scanning (s : Scan)
  | fetch (gen : BitVec 32) (prior : Nat → Nat)
  | storeGen (gen seq : BitVec 32) (prior : Nat → Nat)
  | storeLo (gen seq : BitVec 32) (prior : Nat → Nat)
  | storeHi (gen seq : BitVec 32) (offset : BitVec 64) (prior : Nat → Nat)
  | storeSeq (gen seq : BitVec 32) (offset : BitVec 64) (prior : Nat → Nat)

structure St where
  wall : Nat → WallSet := fun _ => {}
  setter : Nat → Setter := fun _ => .idle
  reader : Nat → Option Scan := fun _ => none
  /-- What was published in each record, in order. -/
  sets : Nat → List Published := fun _ => []
  /-- How many sets began. -/
  begun : Nat := 0

inductive Act where
  /-- A reader of a node begins. -/
  | start (r node : Nat)
  | read (r : Nat)
  /-- `realtime_set` on a node, past its check. -/
  | begin (node : Nat)
  /-- A load of the scan of a set. -/
  | scan (node : Nat)
  /-- The load or the store behind the scan, the offset taken where its low half is stored. -/
  | store (node : Nat) (offset : BitVec 64)
  deriving DecidableEq

namespace St

variable (n : Nat) (x : St)

def count (i : Nat) : Nat := (x.sets i).length

/-- What a record held after `c` of its sets; a record is zeros at boot. -/
def record (i c : Nat) : Published :=
  match c with
  | 0 => {}
  | c + 1 => (x.sets i).getD c {}

def setSetter (i : Nat) (p : Setter) : St := { x with setter := update x.setter i p }

/-- A store to the value of a record that its `seq` does not name. -/
def put (i : Nat) (seq : BitVec 32) (f : WallValue → WallValue) : St :=
  let w := x.wall i
  { x with wall := update x.wall i { w with value := update w.value (parity seq) (f (w.value (parity seq))) } }

/-- The generation of a set whose scan answered `best`; there is none where one record is all there is. -/
def genFor (best : WallRead) : BitVec 32 := if 1 < n then best.gen + 1 else 0

def stores (i : Nat) (offset : BitVec 64) : Setter → Option St
  | .fetch gen prior => some (x.setSetter i (.storeGen gen ((x.wall i).seq + 1) prior))
  | .storeGen gen seq prior => some ((x.put i seq fun v => { v with gen := gen }).setSetter i (.storeLo gen seq prior))
  | .storeLo gen seq prior =>
    some ((x.put i seq fun v => { v with lo := lo offset }).setSetter i (.storeHi gen seq offset prior))
  | .storeHi gen seq offset prior =>
    some ((x.put i seq fun v => { v with hi := hi offset }).setSetter i (.storeSeq gen seq offset prior))
  | .storeSeq gen seq offset prior =>
    some { x.setSetter i .idle with
      wall := update x.wall i { x.wall i with seq := seq }
      sets := update x.sets i (x.sets i ++ [⟨gen, offset, prior⟩]) }
  | _ => none

def step : Act → Option St
  | .start r node =>
    if node < n then some { x with reader := update x.reader r (some (.begin node x.count)) } else none
  | .read r =>
    match x.reader r with
    | some s =>
      if s.finished n then none
      else (s.load n (x.wall s.slot) (x.count s.slot)).map fun s => { x with reader := update x.reader r (some s) }
    | none => none
  | .begin node =>
    match x.setter node with
    | .idle => if node < n then some { x.setSetter node (.scanning (.begin node x.count)) with begun := x.begun + 1 } else none
    | _ => none
  | .scan node =>
    match x.setter node with
    | .scanning s =>
      if s.finished n then some (x.setSetter node (.fetch (genFor n s.best) s.start))
      else (s.load n (x.wall s.slot) (x.count s.slot)).map fun s => x.setSetter node (.scanning s)
    | _ => none
  | .store node offset => x.stores node offset (x.setter node)

end St

/-- A run from the zeros of boot. -/
inductive Reachable (n : Nat) : St → Prop where
  | boot : Reachable n {}
  | step {x y : St} (a : Act) (hx : Reachable n x) (hs : x.step n a = some y) : Reachable n y

end KickOS.Realtime
