import KickOS.Lib.Count

/-! Publication records above one kernel core (`irq.cc`): the dispatch entry of every core, which takes no lock, against the
operations on lines under the kernel lock, which retire a record and reclaim it once the cores that could hold it have left.

A step of the lock's holder is one access to what an entry reads or writes; a chain is a list. Device interrupts do not
preempt one another, so the two words of a core's row change together: an entry nests only inside an entry. -/

namespace KickOS
namespace Publish
open Function (update)

/-- The word of a line in `irq_table`. -/
inductive Word where
  | none
  | live (r : Nat)
  /-- With `IRQ_PUB_RETIRING`. -/
  | retiring (r : Nat)
  deriving DecidableEq

inductive PubState where
  | free
  | live
  | pending
  | draining
  deriving DecidableEq

/-- `IrqDispatch`: the handler with its argument. -/
inductive Dispatch where
  | null
  /-- `irq_default_handler`. -/
  | default
  /-- `irq_event_isr` on a binding slot. -/
  | event (i : Nat)
  /-- A handler of the kernel's own. -/
  | kernel
  deriving DecidableEq

/-- How far an entry of `kickos_isr_irq` is. -/
inductive Frame where
  | raised (line : Nat)
  /-- The line's word is read. -/
  | loaded (r : Option Nat)
  /-- The record is read, and its handler runs. -/
  | running (r : Option Nat) (d : Dispatch)
  deriving DecidableEq

structure Binding where
  line : Nat
  /-- The notification it holds a reference on. -/
  notify : Option Nat := none
  refs : Nat := 1
  deriving DecidableEq

/-- What the holder of the lock does behind its drain. -/
inductive Then where
  | done
  | attach (line : Nat)
  | claim (line i : Nat)
  deriving DecidableEq

/-- Where the holder of the kernel lock is in `pub_drain`. -/
inductive Kop where
  | idle
  | pass (n : Nat) (t : Then)
  /-- In `pub_batch_close`, before the epoch of core `k`. -/
  | sampling (k n : Nat) (t : Then)
  /-- In `pub_batch_elapsed`. -/
  | checking (k n : Nat) (t : Then)
  /-- The records of the batch that are left. -/
  | reclaiming (rest : List Nat) (n : Nat) (t : Then)
  deriving DecidableEq

structure Build where
  cores : Nat
  /-- `IRQ_PUB_SLOTS`; slot 0 is no record. -/
  slots : Nat

structure State where
  word : Nat → Word := fun _ => .none
  pub : Nat → Dispatch := fun _ => .null
  pubState : Nat → PubState := fun _ => .free
  pubBinding : Nat → Option Nat := fun _ => none
  pubLine : Nat → Option Nat := fun _ => none
  free : List Nat
  pending : List Nat := []
  draining : List Nat := []
  /-- A `uint32_t` of each core. -/
  epoch : Nat → Nat := fun _ => 0
  /-- The entries a core is in, the innermost first: its depth. -/
  frames : Nat → List Frame := fun _ => []
  drainEpoch : Nat → Nat := fun _ => 0
  drainOpen : Bool := false
  bindings : Nat → Option Binding := fun _ => none
  kop : Kop := .idle

inductive Act where
  /-- An interrupt of a line on core `k`. -/
  | enter (k line : Nat)
  /-- `irq_published`: its two reads. -/
  | load (k : Nat)
  | read (k : Nat)
  /-- The handler returns. -/
  | leave (k : Nat)
  | attach (line : Nat)
  | detach (line : Nat)
  | claim (line i : Nat)
  | bindNotify (i n : Nat)
  | copy (i : Nat)
  /-- `irq_ref_drop`. -/
  | refDrop (i : Nat)
  /-- `irq_retire_drain`. -/
  | retireDrain
  /-- The holder of the lock takes a step. -/
  | hold
  deriving DecidableEq

namespace State

/-- The epoch turns over where the depth crosses zero. -/
def turn (s : State) (k : Nat) (l : List Frame) : State :=
  { s with
    epoch := update s.epoch k (if s.frames k = [] ∨ l = [] then (s.epoch k + 1) % 2 ^ 32 else s.epoch k)
    frames := update s.frames k l }

def enter (s : State) (k line : Nat) : State := s.turn k (.raised line :: s.frames k)

/-- The word of a line, as `irq_published` reads it: a retiring one fails its range test. -/
def wordSlot (d : Build) : Word → Option Nat
  | .live r => if r = 0 ∨ d.slots ≤ r then none else some r
  | _ => none

def load (d : Build) (s : State) (k : Nat) : State :=
  match s.frames k with
  | .raised line :: l => { s with frames := update s.frames k (.loaded (wordSlot d (s.word line)) :: l) }
  | _ => s

def read (s : State) (k : Nat) : State :=
  match s.frames k with
  | .loaded none :: l => { s with frames := update s.frames k (.running none .default :: l) }
  | .loaded (some r) :: l => { s with frames := update s.frames k (.running (some r) (s.pub r) :: l) }
  | _ => s

def leave (s : State) (k : Nat) : State :=
  match s.frames k with
  | .running _ _ :: l => s.turn k l
  | _ => s

/-- `line_release`, up to its drain. -/
def lineRelease (s : State) (line : Nat) (binding : Option Nat) : State :=
  match s.word line with
  | .none => { s with kop := .pass 0 .done }
  | .live r =>
    { s with
      pubBinding := if binding = none then s.pubBinding else update s.pubBinding r binding
      pubState := update s.pubState r .pending
      pending := r :: s.pending
      word := update s.word line (.retiring r)
      kop := .pass 0 .done }
  | .retiring r =>
    { s with
      pubBinding := if binding = none then s.pubBinding else update s.pubBinding r binding
      kop := .pass 0 .done }

/-- `irq_ref_drop`: the last reference releases the line. -/
def irqRefDrop (s : State) (i : Nat) : State :=
  match s.bindings i with
  | none => s
  | some b =>
    let s := { s with bindings := update s.bindings i (some { b with refs := b.refs - 1 }) }
    if b.refs ≤ 1 then s.lineRelease b.line (some i) else s

/-- `pub_reclaim`. -/
def pubReclaim (s : State) (r : Nat) : State :=
  { s with
    word :=
      match s.pubLine r with
      | some line => update s.word line .none
      | none => s.word
    pubLine := update s.pubLine r none
    bindings :=
      match s.pubBinding r with
      | some i => update s.bindings i none
      | none => s.bindings
    pubBinding := update s.pubBinding r none
    pub := update s.pub r .null
    pubState := update s.pubState r .free
    free := r :: s.free }

/-- `pub_reserve` and `pub_commit`, of the record at the head of the free chain. -/
def commit (s : State) (r : Nat) (rest : List Nat) (line : Nat) (e : Dispatch) : State :=
  { s with
    free := rest
    pubState := update s.pubState r .live
    pubBinding := update s.pubBinding r none
    pub := update s.pub r e
    pubLine := update s.pubLine r (some line)
    word := update s.word line (.live r) }

/-- What follows the drain: a line that is not free is refused. -/
def finish (s : State) : Then → State
  | .done => { s with kop := .idle }
  | .attach line =>
    match s.word line, s.free with
    | .none, r :: rest => { s.commit r rest line .kernel with kop := .idle }
    | _, _ => { s with kop := .idle }
  | .claim line i =>
    match s.word line, s.free, s.bindings i with
    | .none, r :: rest, none =>
      { s.commit r rest line (.event i) with
        bindings := update s.bindings i (some { line := line })
        kop := .idle }
    | _, _, _ => { s with kop := .idle }

def hold (d : Build) (s : State) : State :=
  match s.kop with
  | .idle => s
  | .pass n t =>
    if 2 ≤ n then s.finish t
    else if s.drainOpen then { s with kop := .checking 0 n t }
    else if s.pending = [] then s.finish t
    else
      { s with
        draining := s.pending
        pending := []
        pubState := fun r => if r ∈ s.pending then .draining else s.pubState r
        kop := .sampling 0 n t }
  | .sampling k n t =>
    if d.cores ≤ k then { s with drainOpen := true, kop := .checking 0 n t }
    else { s with drainEpoch := update s.drainEpoch k (s.epoch k), kop := .sampling (k + 1) n t }
  | .checking k n t =>
    if d.cores ≤ k then { s with draining := [], kop := .reclaiming s.draining n t }
    else if s.drainEpoch k % 2 = 0 then { s with kop := .checking (k + 1) n t }
    else if s.epoch k = s.drainEpoch k then s.finish t
    else { s with kop := .checking (k + 1) n t }
  | .reclaiming [] n t => { s with drainOpen := false, kop := .pass (n + 1) t }
  | .reclaiming (r :: rest) n t => { s.pubReclaim r with kop := .reclaiming rest n t }

/-- The kernel detaches only a line it attached itself. -/
def ownLine (s : State) (line : Nat) : Bool :=
  match s.word line with
  | .live r => s.pub r == .kernel
  | _ => true

def enabled (d : Build) (s : State) : Act → Bool
  | .enter k _ => decide (k < d.cores)
  | .attach _ => s.kop == .idle
  | .detach line => s.kop == .idle && s.ownLine line
  | .claim _ _ => s.kop == .idle
  | .bindNotify i _ => s.kop == .idle && ((s.bindings i).any fun b => decide (0 < b.refs))
  | .copy i => s.kop == .idle && ((s.bindings i).any fun b => decide (0 < b.refs))
  | .refDrop i => s.kop == .idle && ((s.bindings i).any fun b => decide (0 < b.refs))
  | .retireDrain => s.kop == .idle
  | _ => true

def next (d : Build) (s : State) : Act → State
  | .enter k line => s.enter k line
  | .load k => s.load d k
  | .read k => s.read k
  | .leave k => s.leave k
  | .attach line => { s with kop := .pass 0 (.attach line) }
  | .detach line => s.lineRelease line none
  | .claim line i => { s with kop := .pass 0 (.claim line i) }
  | .bindNotify i n =>
    match s.bindings i with
    | some b => if b.notify = none then { s with bindings := update s.bindings i (some { b with notify := some n }) } else s
    | none => s
  | .copy i =>
    match s.bindings i with
    | some b => { s with bindings := update s.bindings i (some { b with refs := b.refs + 1 }) }
    | none => s
  | .refDrop i => s.irqRefDrop i
  | .retireDrain => { s with kop := .pass 0 .done }
  | .hold => s.hold d

end State

/-- `pub_reset`: every record but slot 0 free. -/
def boot (d : Build) : State := { free := (List.range d.slots).filter fun r => 0 < r }

inductive Reachable (d : Build) : State → Prop where
  | boot : Reachable d (boot d)
  | step {s : State} (hs : Reachable d s) (a : Act) (ha : s.enabled d a = true) : Reachable d (s.next d a)

end Publish
end KickOS
