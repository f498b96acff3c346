import KickOS.Lib.Extent

/-! The partition build (`tools/compose/kickos_compose/partition.py`): every node's composition admitted against one manifest, the
partition regions placed in the user share, and the gate assignment derived from the grants.

The readers of the chip file and of the manifest refuse a page or a smallest window that is no power of two, so there is no other
here. A refusal holds what its message names. -/

namespace KickOS.Compose

open Lib.Extent (ceilTo)

abbrev Pow2 := { n : Nat // n.isPowerOfTwo }

/-- `window_rule`, with the smallest window of a rule that has one. -/
inductive WindowRule where
  | pow2 (smallest : Pow2)
  | granule (smallest : Pow2)
  | none

/-- What the manifest states; the node count is the one of the compositions. -/
structure Manifest where
  rule : WindowRule
  /-- Base and size. -/
  ampWindow : Option (Nat × Nat)
  ampShare : Nat
  /-- Base and stride. -/
  ampSlices : Option (Nat × Nat)

/-- An access, in the order of the spellings. -/
inductive Access where
  | r | rw | rwx | rx | w | wx | x
  deriving DecidableEq

def Access.rank : Access → Nat
  | .r => 0
  | .rw => 1
  | .rwx => 2
  | .rx => 3
  | .w => 4
  | .wx => 5
  | .x => 6

inductive Space where
  | mem
  | port
  deriving DecidableEq

/-- A grant of a task; `register` is the gate register of its device. -/
structure Grant (P : Type) where
  path : P
  task : Nat
  space : Space
  base : Nat
  size : Nat
  register : Option Nat

/-- `Gate`: one unit of a region gate. -/
structure GateUnit where
  regions : Option Nat
  ranges : List (Nat × Nat)
  memory : List (Nat × Nat)
  kernel : List (Nat × Nat × Access)

inductive GateKind where
  | apm
  | accessctrl
  | rdc
  deriving DecidableEq

structure PartitionGate where
  kind : GateKind
  gates : List GateUnit

inductive View (C : Type) where
  | part
  | cluster (name : C)

structure Chip (C : Type) where
  clusters : List C
  /-- The page of the unit that protects a view, where it translates. -/
  page : View C → Option Pow2
  partitionGate : Option PartitionGate

def clusterViews {C : Type} (chip : Chip C) : Option C → List (View C)
  | some cluster => [.cluster cluster]
  | none =>
    match chip.clusters with
    | [] => [.part]
    | clusters => clusters.map .cluster

structure Region where
  size : Nat
  /-- Whether it lives in the user share. -/
  shares : Bool

/-- `Admitted`: a node's composition. -/
structure Made (P C : Type) where
  chip : Chip C
  cluster : Option C
  shared : List (P × Region)
  grants : List (Grant P)
  /-- A path names one region. -/
  keys : (shared.map Prod.fst).Nodup

inductive Refusal (P : Type) where
  /-- `partition.region`: two sizes, not a partition region, past the share. -/
  | size (node : Nat) (path : P) (size firstNode first : Nat)
  | apart (node : Nat) (path : P) (firstNode : Nat)
  | past (node : Nat) (path : P) (offset : Int) (size align : Nat)
  /-- `partition.gate-budget`: no register, another node's register, no gate, no row left. -/
  | unassigned (node : Nat) (grant : Grant P)
  | claimed (node : Nat) (grant : Grant P) (register owner : Nat) (held : Option (Grant P))
  | unfronted (node : Nat) (grant : Grant P)
  | budget (node : Nat) (grant : Option (Grant P)) (gate needs holds : Nat)

variable {P C : Type} [DecidableEq P]

/-! ### Regions -/

/-- `pow2_ceil`, which doubles from 1 on. -/
def pow2Ceil (want : Nat) : Nat := want.nextPowerOfTwo

def ramSize (want : Nat) : WindowRule → Nat
  | .pow2 smallest => pow2Ceil (max want smallest)
  | .granule smallest => ceilTo (max want smallest) smallest
  | .none => ceilTo want 16

namespace Made

def pages (made : Made P C) : List Pow2 := (clusterViews made.chip made.cluster).filterMap made.chip.page

def regionSize (made : Made P C) (rule : WindowRule) (size : Nat) : Nat :=
  let size := match rule with
    | .pow2 _ => ramSize size rule
    | .granule _ => if size ≠ 0 then ramSize size rule else size
    | .none => size
  made.pages.foldl (fun size page => ceilTo size page) size

def regionAlign (made : Made P C) (rule : WindowRule) (size : Nat) : Nat :=
  let align := match rule with
    | .pow2 _ => size
    | .granule smallest => smallest.1
    | .none => 1
  made.pages.foldl (fun align page => max align page) align

def isPartitionRegion (made : Made P C) (path : P) : Bool := made.shared.any fun e => decide (e.1 = path) && e.2.shares

def partitionRegions (made : Made P C) : List (P × Region) := made.shared.filter fun e => made.isPartitionRegion e.1

end Made

def shareBase (m : Manifest) : Int :=
  match m.ampWindow with
  | none => 0
  | some (base, size) => base + size - m.ampShare

/-- A region in the order of the declarations, with its first declaration. -/
structure Declared (P : Type) where
  path : P
  node : Nat
  region : Region

def Declared.named (path : P) (d : List (Declared P)) : Option (Declared P) := d.find? fun e => decide (e.path = path)

/-- One declaration: the first of its path, or one that is compared with the first. -/
def declare (s : List (Declared P) × List (Refusal P)) (e : Nat × P × Region) : List (Declared P) × List (Refusal P) :=
  match Declared.named e.2.1 s.1 with
  | none => (s.1 ++ [⟨e.2.1, e.1, e.2.2⟩], s.2)
  | some first =>
    if e.2.2.size ≠ first.region.size then (s.1, s.2 ++ [.size e.1 e.2.1 e.2.2.size first.node first.region.size]) else s

/-- The partition regions of every node, node after node. -/
def declarations (nodes : List (Made P C)) : List (Nat × P × Region) :=
  nodes.zipIdx.flatMap fun e => e.1.partitionRegions.map fun r => (e.2, r)

/-- A shared region that is a partition region on another node only. -/
def apart (nodes : List (Made P C)) (d : List (Declared P)) : List (Refusal P) :=
  nodes.zipIdx.flatMap fun e => e.1.shared.filterMap fun r =>
    if r.2.shares then none else (Declared.named r.1 d).map fun first => .apart e.2 r.1 first.node

/-- The size and the alignment that every node with the region needs. -/
def measured (rule : WindowRule) (path : P) (size : Nat) (s : Nat × Nat) (made : Made P C) : Nat × Nat :=
  if made.isPartitionRegion path then
    (max s.1 (made.regionSize rule size), max s.2 (made.regionAlign rule (max s.1 (made.regionSize rule size))))
  else s

structure Placed (P : Type) where
  path : P
  offset : Int
  size : Nat
  align : Nat

def placeOne (nodes : List (Made P C)) (m : Manifest) (s : Int × List (Placed P)) (d : Declared P) : Int × List (Placed P) :=
  let needs := nodes.foldl (measured m.rule d.path d.region.size) (0, 1)
  let offset := -(-(shareBase m + s.1) / (needs.2 : Int)) * (needs.2 : Int) - shareBase m
  (offset + needs.1, s.2 ++ [⟨d.path, offset, needs.1, needs.2⟩])

/-- A region that ends past the share is refused on every node that has it. -/
def past (nodes : List (Made P C)) (m : Manifest) (p : Placed P) : List (Refusal P) :=
  if (m.ampShare : Int) < p.offset + p.size then
    nodes.zipIdx.filterMap fun e => if e.1.isPartitionRegion p.path then some (.past e.2 p.path p.offset p.size p.align) else none
  else []

def placeRegions (nodes : List (Made P C)) (m : Manifest) : List (Placed P) × List (Refusal P) :=
  let declared := (declarations nodes).foldl declare ([], [])
  let placed := (declared.1.foldl (placeOne nodes m) (0, [])).2
  (placed, declared.2 ++ apart nodes declared.1 ++ placed.flatMap (past nodes m))

/-! ### Gates -/

structure Row (P : Type) where
  gate : Nat
  node : Nat
  base : Nat
  size : Nat
  access : Access
  register : Nat := 0
  /-- The grant that made the row; the kernel's own has none. -/
  grant : Option (Grant P) := none

def Row.stop (r : Row P) : Nat := r.base + r.size

def Grant.stop (g : Grant P) : Nat := g.base + g.size

def inside (ranges : List (Nat × Nat)) (base size : Nat) : Bool :=
  ranges.any fun r => decide (r.1 ≤ base ∧ base + size ≤ r.1 + r.2)

def fronted (gate : GateUnit) (g : Grant P) : Bool := inside gate.ranges g.base g.size

/-- The order of `(node, access, base)`. -/
def Row.Le (a b : Row P) : Prop :=
  a.node < b.node ∨ a.node = b.node ∧ (a.access.rank < b.access.rank ∨ a.access.rank = b.access.rank ∧ a.base ≤ b.base)

instance : DecidableRel (Row.Le (P := P)) := fun _ _ => inferInstanceAs (Decidable (_ ∨ _))

def touches (row next : Row P) : Bool := decide (row.node = next.node ∧ row.access = next.access ∧ row.stop = next.base)

/-- A row goes into the last one that was merged, or behind it; the last one is at the head. -/
def absorb (merged : List (Row P)) (row : Row P) : List (Row P) :=
  match merged with
  | [] => [row]
  | last :: rest =>
    if touches last row then { last with size := row.stop - last.base, grant := last.grant.orElse fun _ => row.grant } :: rest
    else row :: last :: rest

def coalesce (rows : List (Row P)) : List (Row P) := ((rows.insertionSort Row.Le).foldl absorb []).reverse

def owner (rows : List (Row P)) (register : Nat) : Option (Row P) := rows.find? fun row => decide (row.register = register)

/-- A grant under a gate of one register for each peripheral. -/
def assign (s : List (Row P) × List (Refusal P)) (e : Nat × Grant P) : List (Row P) × List (Refusal P) :=
  match e.2.register with
  | none => (s.1, s.2 ++ [.unassigned e.1 e.2])
  | some register =>
    match owner s.1 register with
    | some row => if row.node ≠ e.1 then (s.1, s.2 ++ [.claimed e.1 e.2 register row.node row.grant]) else s
    | none => (s.1 ++ [⟨0, e.1, e.2.base, e.2.size, .rw, register, some e.2⟩], s.2)

/-- What the kernel of node `k` holds through a unit: its slice and the shared window where the unit fronts them, and
the unit's own ranges. -/
def kernelRanges (m : Manifest) (unit : GateUnit) (k : Nat) : List (Nat × Nat × Access) :=
  (match m.ampSlices, m.ampWindow with
    | some slices, some window =>
      [(slices.1 + k * slices.2, slices.2, Access.rwx), (window.1, window.2, Access.rw)].filter fun r =>
        inside unit.memory r.1 r.2.1
    | _, _ => []) ++ unit.kernel

def gateRows (m : Manifest) (grants : List (Nat × Grant P)) (nodes index : Nat) (unit : GateUnit) : List (Row P) :=
  ((List.range' 1 (nodes - 1)).flatMap fun k => (kernelRanges m unit k).map fun r => ⟨index, k, r.1, r.2.1, r.2.2, 0, none⟩) ++
    (grants.filter fun e => fronted unit e.2).map fun e => ⟨index, e.1, e.2.base, e.2.size, .rw, 0, some e.2⟩

/-- More rows than the regions behind the catch-all: every row of a grant is refused, or the kernel's own where there is none. -/
def overBudget (index : Nat) (unit : GateUnit) (rows : List (Row P)) : List (Refusal P) :=
  let budget := unit.regions.getD 1 - 1
  if budget < rows.length then
    match rows.filter fun row => row.grant.isSome with
    | [] => [.budget 0 none index rows.length budget]
    | made => made.map fun row => .budget row.node row.grant index rows.length budget
  else []

def deriveGate (gate : PartitionGate) (m : Manifest) (grants : List (Nat × Grant P)) (nodes : Nat) :
    List (Row P) × List (Refusal P) :=
  if gate.kind = .accessctrl then grants.foldl assign ([], [])
  else
    let unfronted := (grants.filter fun e => !gate.gates.any fun unit => fronted unit e.2).map fun e => Refusal.unfronted e.1 e.2
    let rows := fun e : GateUnit × Nat => coalesce (gateRows m grants nodes e.2 e.1)
    (gate.gates.zipIdx.flatMap rows, unfronted ++ gate.gates.zipIdx.flatMap fun e => overBudget e.2 e.1 (rows e))

/-! ### The partition -/

/-- The compositions, node 0's first. -/
structure Partition (P C : Type) where
  first : Made P C
  rest : List (Made P C)
  manifest : Manifest

namespace Partition

variable (p : Partition P C)

def nodes : List (Made P C) := p.first :: p.rest

/-- The grants of memory windows, node after node. -/
def memGrants : List (Nat × Grant P) :=
  p.nodes.zipIdx.flatMap fun e => (e.1.grants.filter fun g => decide (g.space = .mem)).map fun g => (e.2, g)

/-- `partition_gate`. -/
def gate : List (Row P) × List (Refusal P) :=
  match p.first.chip.partitionGate with
  | none => ([], [])
  | some gate => deriveGate gate p.manifest p.memGrants p.nodes.length

def placed : List (Placed P) := (placeRegions p.nodes p.manifest).1

def rows : List (Row P) := p.gate.1

/-- What the composer refuses; it admits a partition it refuses nothing of. -/
def refusals : List (Refusal P) := (placeRegions p.nodes p.manifest).2 ++ p.gate.2

end Partition

end KickOS.Compose
