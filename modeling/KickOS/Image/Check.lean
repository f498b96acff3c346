import Mathlib.Tactic
import Mathlib.Order.CompletePartialOrder

/-! The boot's check of the images (`kernel/task/image_check.cc`, `kernel/task/image.cc`): the header of each, the spans
it states and its declarations, and where the kernel reads of them afterwards. An address is the image's own, and its
memory is what the kernel's view of it holds. -/

namespace KickOS.Image

variable {w : Nat}

/-- `ImageSpan`. -/
structure Span (w : Nat) where
  start : BitVec w
  stop : BitVec w

/-- `kos_image_header`. -/
structure Header (w : Nat) where
  magic : BitVec 32
  version : BitVec 16
  size : BitVec 16
  buildId : BitVec w
  program : BitVec w
  codeStart : BitVec w
  codeEnd : BitVec w
  windowStart : BitVec w
  windowSize : BitVec w
  dataLoad : BitVec w
  dataStart : BitVec w
  dataEnd : BitVec w
  bssEnd : BitVec w
  heapStart : BitVec w
  heapEnd : BitVec w
  tlsTemplate : BitVec w
  tlsOffset : BitVec w
  tlsInit : BitVec w
  tlsTotal : BitVec w
  tlsAlign : BitVec w
  ctorStart : BitVec w
  ctorEnd : BitVec w
  ehFrame : BitVec w
  start : BitVec w
  declStart : BitVec w
  reentTemplate : BitVec w
  reentWidth : BitVec w
  reentSeat : BitVec w
  needs : BitVec w
  needsCount : BitVec w
  decls : BitVec w
  declCount : BitVec w
  stamp : BitVec w
  initArgs : BitVec w
  threadReturn : BitVec w
  taskStart : BitVec w
  casStart : BitVec w
  casStore : BitVec w

/-- `kos_task_decl`, as far as it is checked. -/
structure TaskDecl where
  name : BitVec 32
  grants : BitVec 32
  coreMask : BitVec 32
  authority : BitVec 32
  stack : BitVec 32
  grantCount : BitVec 16
  flags : BitVec 16
  priority : BitVec 8
  ceiling : BitVec 8
  notify : BitVec 16

/-- `kos_decl_grant`, as far as it is checked. -/
structure DeclGrant (w : Nat) where
  kind : BitVec 8
  trigger : BitVec 8
  line : BitVec 16
  size : BitVec 32
  base : BitVec w

/-- What the kernel's view of an image's addresses holds, as bytes, declarations and grants. -/
structure Memory (w : Nat) where
  byte : BitVec w → BitVec 8
  decl : BitVec w → TaskDecl
  grant : BitVec w → DeclGrant w

def wordBytes (w : Nat) : Nat := w / 8

def headerBytes (w : Nat) : Nat := 8 + 36 * wordBytes w

def declBytes : Nat := 68

def grantBytes (w : Nat) : Nat := if w = 32 then 16 else 24

/-- `ImageBounds`. The pool of tasks is far from the size at which the array of the declarations would wrap. -/
structure Bounds (w : Nat) where
  buildId : BitVec w
  spans : Bool
  dataInPlace : Bool
  taskStart : Bool
  code : Span w
  kernelCode : Span w
  ram : Span w
  kernelData : Span w
  kernelStacks : Span w
  arena : Span w
  tls : Span w
  tlsAlignMax : BitVec w
  windowEncodable : Option (BitVec w → BitVec w → Bool)
  declsMax : BitVec w
  prioMin : BitVec 8
  prioMax : BitVec 8
  cores : BitVec 32
  authority : BitVec 32
  stackAlign : BitVec 32
  windowsMax : BitVec 16
  linesMax : BitVec 16
  deviceOk : Option (BitVec w → BitVec w → Bool)
  portsOk : Option (BitVec w → BitVec w → Bool)
  lineOk : Option (BitVec 16 → Bool)
  declsMax_few : declsMax.toNat * declBytes < 2 ^ w

/-- `ImageCheck`. -/
inductive ImageCheck where
  | ok | magic | version | size | buildId | needs | decls | start | initArgs | threadReturn | taskStart | declStart
    | cas | codeSpan | codeKernel
  | codeOverlap | windowSpan | windowKernel | windowCode | windowOverlap | windowEncodable | data | heap | reentSeat
    | reentTemplate | dataLoad
  | tlsTemplate | tlsSizes | tlsAlign | tlsSegment | ctor | ehFrame | program | stamp | declSpan | declName
    | declPriority | declCeiling | declCores
  | declStack | declAuthority | declFlags | declGrants | declKind | declWindows | declDevice | declPorts | declLines | declLine
  deriving DecidableEq

/-- The tests in their order, each with the field it refuses at. -/
def refuse : List (Bool × ImageCheck) → ImageCheck
  | [] => .ok
  | (true, c) :: _ => c
  | (false, _) :: tests => refuse tests

/-- The first of the checks that is not passed. -/
def firstOf : List ImageCheck → ImageCheck
  | [] => .ok
  | .ok :: checks => firstOf checks
  | c :: _ => c

def aligned {n : Nat} (v a : BitVec n) : Bool := v &&& (a - 1) = 0

def word (w n : Nat) : BitVec w := BitVec.ofNat w n

def byteWithin (p : BitVec w) (m : Span w) : Bool := p ≠ 0 ∧ m.start ≤ p ∧ p < m.stop

def spanOk (start stop : BitVec w) : Bool := start ≤ stop

def within (start stop : BitVec w) (m : Span w) : Bool := spanOk start stop && decide (m.start ≤ start) && decide (stop ≤ m.stop)

def sizedWithin (base size : BitVec w) (m : Span w) : Bool := m.start ≤ base ∧ base ≤ m.stop ∧ size ≤ m.stop - base

def meets (start stop : BitVec w) (m : Span w) : Bool :=
  if stop = start ∨ m.stop = m.start then false else start < m.stop ∧ m.start < stop

def pow2 (v : BitVec w) : Bool := v ≠ 0 ∧ v &&& (v - 1) = 0

/-- `string_within`: one of the bytes below the end is the NUL. -/
def stringWithin (mem : Memory w) (p stop : BitVec w) : Bool :=
  (List.range (stop - p).toNat).any fun k => mem.byte (p + word w k) = 0

namespace Header

variable (h : Header w)

def code : Span w := ⟨h.codeStart, h.codeEnd⟩

def window : Span w := ⟨h.windowStart, h.windowStart + h.windowSize⟩

def data : Span w := ⟨h.dataStart, h.dataEnd⟩

end Header

/-- `check_spans`. -/
def checkSpans (h : Header w) (b : Bounds w) (mem : Memory w) (earlier : List (Header w)) : ImageCheck :=
  refuse [
    (decide (h.tlsTotal < h.tlsInit), .tlsSizes),
    (!pow2 h.tlsAlign || decide (b.tlsAlignMax < h.tlsAlign), .tlsAlign),
    (decide (b.tls.stop - b.tls.start < h.tlsOffset) || decide (b.tls.stop - b.tls.start - h.tlsOffset < h.tlsTotal),
      .tlsSegment),
    (!within h.codeStart h.codeEnd b.code || decide (h.codeEnd = h.codeStart), .codeSpan),
    (!byteWithin h.start h.code, .start),
    (!byteWithin h.threadReturn h.code, .threadReturn),
    (decide (h.taskStart ≠ 0) && !byteWithin h.taskStart h.code, .taskStart),
    (decide (h.declStart ≠ 0) && !byteWithin h.declStart h.code, .declStart),
    (decide (h.casStart ≠ 0) && !within h.casStart (h.casStore + 1) h.code, .cas),
    (meets h.codeStart h.codeEnd b.kernelCode, .codeKernel),
    (earlier.any fun e => meets h.codeStart h.codeEnd e.code, .codeOverlap),
    (!sizedWithin h.windowStart h.windowSize b.ram, .windowSpan),
    (meets h.window.start h.window.stop b.kernelCode || meets h.window.start h.window.stop b.kernelData ||
      meets h.window.start h.window.stop b.kernelStacks || meets h.window.start h.window.stop b.arena, .windowKernel),
    (meets h.window.start h.window.stop b.code, .windowCode),
    (earlier.any fun e => meets h.window.start h.window.stop e.window, .windowOverlap),
    (b.windowEncodable.any fun encodable => decide (h.windowSize ≠ 0) && !encodable h.windowStart h.windowSize, .windowEncodable),
    (!sizedWithin h.initArgs (word w (2 * wordBytes w)) h.window, .initArgs),
    (!within h.dataStart h.dataEnd h.window || !within h.dataEnd h.bssEnd h.window, .data),
    (!within h.heapStart h.heapEnd h.window || decide (h.heapStart < h.bssEnd) || !aligned h.heapStart (word w 8), .heap),
    (decide (h.reentSeat ≠ 0) && (!aligned h.reentSeat (word w (wordBytes w)) || !sizedWithin h.reentSeat
      (word w (wordBytes w)) h.window), .reentSeat),
    (decide (h.reentWidth ≠ 0) && !sizedWithin h.reentTemplate h.reentWidth h.data, .reentTemplate),
    (!(b.dataInPlace && decide (h.dataLoad = h.dataStart)) && !sizedWithin h.dataLoad (h.dataEnd - h.dataStart)
      h.code, .dataLoad),
    (decide (h.tlsTemplate ≠ b.tls.start + h.tlsOffset) || !sizedWithin h.tlsTemplate h.tlsInit b.tls, .tlsTemplate),
    (!within h.ctorStart h.ctorEnd h.code && !within h.ctorStart h.ctorEnd h.window ||
      !aligned (h.ctorEnd - h.ctorStart) (word w (wordBytes w)), .ctor),
    (decide (h.ehFrame ≠ 0) && !byteWithin h.ehFrame h.code, .ehFrame),
    (!byteWithin h.program h.code || !stringWithin mem h.program h.codeEnd, .program),
    (!byteWithin h.stamp h.code || !stringWithin mem h.stamp h.codeEnd, .stamp)]

/-- `array_ok`. -/
def arrayOk (base count width align : BitVec w) (h : Header w) (spans : Bool) : Bool :=
  decide (base ≠ 0) && aligned base align && (!spans || sizedWithin base (count * width) h.code)

/-- `offset_ok`. -/
def offsetOk (offset bytes : BitVec w) (h : Header w) (spans : Bool) : Bool :=
  !spans || (decide (offset ≤ h.codeEnd - h.decls) && decide (bytes ≤ h.codeEnd - h.decls - offset))

/-- The grants of a declaration, as the kernel reads them. -/
def grantAt (h : Header w) (d : TaskDecl) (k : Nat) : BitVec w := h.decls + d.grants.setWidth w + word w (k * grantBytes w)

def grantCheck (b : Bounds w) (g : DeclGrant w) : ImageCheck :=
  if g.kind = 1 then if b.deviceOk.any fun ok => !ok g.base (g.size.setWidth w) then .declDevice else .ok
  else if g.kind = 2 then if b.portsOk.any fun ok => !ok g.base (g.size.setWidth w) then .declPorts else .ok
  else if g.kind = 3 then if (b.lineOk.any fun ok => !ok g.line) || decide (g.trigger &&& ~~~1 ≠ 0) then .declLine else .ok
  else .declKind

/-- `check_grants`. -/
def checkGrants (d : TaskDecl) (b : Bounds w) (h : Header w) (mem : Memory w) (spans : Bool) : ImageCheck :=
  if d.grantCount = 0 then if d.grants ≠ 0 then .declGrants else .ok
  else
    let grants := (List.range d.grantCount.toNat).map fun k => mem.grant (grantAt h d k)
    let windows := grants.countP fun g => g.kind = 1 ∨ g.kind = 2
    let lines := grants.countP fun g => g.kind = 3
    firstOf [
      refuse [
        (decide (b.windowsMax.toNat + b.linesMax.toNat < d.grantCount.toNat) ||
          !aligned (h.decls + d.grants.setWidth w) (word w (wordBytes w)) ||
          !offsetOk (d.grants.setWidth w) (word w (d.grantCount.toNat * grantBytes w)) h spans, .declGrants)],
      firstOf (grants.map (grantCheck b)),
      refuse [
        (decide (b.windowsMax.toNat < windows), .declWindows),
        (decide (b.linesMax.toNat < lines) || (decide (lines ≠ 0) && decide (d.flags &&& 2 ≠ 0) &&
          decide (d.notify = 0)), .declLines)]]

def checkDecl (h : Header w) (b : Bounds w) (mem : Memory w) (spans : Bool) (d : TaskDecl) : ImageCheck :=
  firstOf [
    refuse [
      (decide (d.name = 0) || !offsetOk (d.name.setWidth w) 1 h spans ||
        (spans && !stringWithin mem (h.decls + d.name.setWidth w) h.codeEnd), .declName),
      (decide (d.priority < b.prioMin) || decide (b.prioMax < d.priority), .declPriority),
      (decide (d.ceiling < d.priority) || decide (b.prioMax < d.ceiling), .declCeiling),
      (decide (d.coreMask ≠ 0) && decide (d.coreMask &&& b.cores = 0), .declCores),
      (decide (d.flags &&& ~~~0xf ≠ 0) ||
        (decide (d.flags &&& 6 = 6) && (decide (d.grantCount ≠ 0) || decide (d.flags &&& 1 = 0))), .declFlags),
      (!aligned d.stack b.stackAlign || (decide (d.stack = 0) && decide (d.flags &&& 2 = 0)), .declStack),
      (decide (d.authority &&& ~~~b.authority ≠ 0), .declAuthority)],
    checkGrants d b h mem spans]

/-- The address of a declaration in the image's array. -/
def declAt (h : Header w) (i : Nat) : BitVec w := h.decls + word w (i * declBytes)

/-- `check_decls`. -/
def checkDecls (h : Header w) (b : Bounds w) (mem : Memory w) (spans : Bool) : ImageCheck :=
  if h.declCount = 0 then .ok
  else if !arrayOk h.decls h.declCount (word w declBytes) 4 h spans then .declSpan
  else firstOf ((List.range h.declCount.toNat).map fun i => checkDecl h b mem spans (mem.decl (declAt h i)))

/-- `image_header_check`. -/
def headerCheck (h : Header w) (b : Bounds w) (mem : Memory w) (earlier : List (Header w)) : ImageCheck :=
  firstOf [
    refuse [
      (decide (h.magic ≠ 0x474d494b), .magic),
      (decide (h.version ≠ 6), .version),
      (decide (h.size ≠ BitVec.ofNat 16 (headerBytes w)), .size),
      (decide (h.buildId ≠ b.buildId), .buildId),
      (decide (h.needs ≠ 0) || decide (h.needsCount ≠ 0), .needs),
      (decide (h.decls = 0) != decide (h.declCount = 0) || decide (b.declsMax < h.declCount) || !aligned h.decls 4, .decls),
      (decide (h.start = 0), .start),
      (decide (h.initArgs = 0) || !aligned h.initArgs (word w (wordBytes w)), .initArgs),
      (decide (h.threadReturn = 0), .threadReturn),
      (b.taskStart != decide (h.taskStart ≠ 0), .taskStart),
      (decide (h.declStart = 0) != decide (h.declCount = 0), .declStart),
      (decide (h.casStore < h.casStart) || decide (h.casStart = 0) != decide (h.casStore = 0), .cas)],
    if b.spans then checkSpans h b mem earlier else .ok,
    checkDecls h b mem b.spans]

/-- An image of the link's table. -/
structure Record (w : Nat) where
  header : Header w
  bounds : Bounds w
  mem : Memory w

/-- A link: whether a backend translates, and the table. The bounds are the link's own, and on a translating backend
each image's. -/
structure Table (w : Nat) where
  translates : Bool
  images : List (Record w)
  same : translates = false → ∀ i ∈ images, ∀ j ∈ images, i.bounds = j.bounds

/-- The loop of `image_records_publish`, behind the images it has published. -/
def publishFrom (translates : Bool) (met : List (Header w)) : List (Record w) → Bool
  | [] => true
  | i :: images =>
    headerCheck i.header i.bounds i.mem (if translates then [] else met) = .ok ∧
      publishFrom translates (met ++ [i.header]) images = true

/-- `image_records_publish`: it goes through without a panic. -/
def Table.publish (t : Table w) : Bool := publishFrom t.translates [] t.images

/-! ### What the kernel reads afterwards -/

/-- `decl_image`: the image of declaration `i` of the link, and its place there. -/
def declImage : List (Record w) → Nat → Option (Record w × Nat)
  | [], _ => none
  | k :: images, i =>
    if k.header.declCount.toNat ≤ i then declImage images (i - k.header.declCount.toNat) else some (k, i)

/-- `decl_owner`, for an address where the kernel's view is the image's. -/
def declOwner (d : BitVec w) : List (Record w) → Option (Record w)
  | [] => none
  | [k] => some k
  | k :: images =>
    if k.header.decls ≤ d ∧ d < k.header.decls + k.header.declCount * word w declBytes then some k else declOwner d images

end KickOS.Image
