import KickOS.Lib.Buffer

/-! The thread-local storage of the RX (`user/src/arch/rxv3/emutls.cc`): one block for each thread at the bottom of its
stack, and the call that the compiler makes of every access to a thread-local object.

The blocks are bytes in one memory. A panic stops the system, which is `none`. A control block lies where every thread
of the task can write it, so a call is given what its reads of it found. A call writes in the block of its own thread
alone, so it is one step. -/

namespace KickOS.Tls

abbrev Mem := Nat → BitVec 8

/-- The control block of an object, with the null template as `none`. -/
structure EmutlsObject where
  size : Nat
  align : Nat
  templ : Option Nat

def objectBytes : Nat := 16

def headerBytes : Nat := 4

def payloadAlign : Nat := 8

/-- `KICKOS_RX_TLS_BLOCK`. -/
def blockBytes : Nat := 256

/-- An image: where its control blocks are gathered, how many there are and what they say, the code flash, and the two
constants of its stacks. The configuration refuses a stack that is not one stride, and the link a carve that leaves no
room for the block. -/
structure Image where
  vstart : Nat
  nslots : Nat
  object : Nat → EmutlsObject
  code : Mem
  codeStart : Nat
  codeEnd : Nat
  tlsTotal : Nat
  strideLog : Nat
  reentCarve : Nat
  stride_large : 3 ≤ strideLog
  carve_aligned : payloadAlign ∣ reentCarve
  carve_fits : reentCarve + blockBytes < 2 ^ strideLog

/-- `x & ~m`. -/
def clear (x m : Nat) : Nat := x - (x &&& m)

def alignUp (v a : Nat) : Nat := clear (v + (a - 1)) (a - 1)

/-- A load and a store of a `uint16_t`. -/
def load16 (mem : Mem) (a : Nat) : Nat := (mem a).toNat + 256 * (mem (a + 1)).toNat

def store16 (mem : Mem) (a v : Nat) : Mem := Lib.Buffer.putAll mem a [BitVec.ofNat 8 v, BitVec.ofNat 8 (v / 256)]

namespace Image

variable (im : Image)

def stride : Nat := 2 ^ im.strideLog

def vend : Nat := im.vstart + objectBytes * im.nslots

/-- The index of the control block at an address, if one is there. -/
def indexOf (anchor : Nat) : Option Nat :=
  if anchor < im.vstart ∨ im.vend ≤ anchor then none
  else if (anchor - im.vstart) % objectBytes ≠ 0 then none
  else some ((anchor - im.vstart) / objectBytes)

/-- Where the bump area begins in a block. -/
def dataStart : Nat := alignUp (headerBytes + 2 * ((im.vend - im.vstart) / objectBytes)) payloadAlign

/-- The thread pointer, from the stack pointer. -/
def tpOf (sp : Nat) : Nat := clear (sp - 1) (im.stride - 1) + im.reentCarve

/-- The bump pointer of the block, set on the first access. -/
def openBrk (mem : Mem) (tp : Nat) : Option Mem :=
  if load16 mem tp = 0 then some (store16 mem tp im.dataStart)
  else if load16 mem tp < im.dataStart ∨ blockBytes < load16 mem tp then none
  else some mem

/-- The first access of a thread to an object. -/
def allocate (mem : Mem) (tp index : Nat) (seen : EmutlsObject) : Option (Mem × Nat) :=
  let want := seen.size
  let wantAlign := seen.align
  if want = 0 ∨ blockBytes < want then none
  else if wantAlign = 0 ∨ payloadAlign < wantAlign ∨ wantAlign &&& (wantAlign - 1) ≠ 0 then none
  else
    let off := alignUp (load16 mem tp) wantAlign
    if blockBytes < off ∨ blockBytes - off < want then none
    else
      let mem := store16 mem tp (off + want)
      let mem := store16 mem (tp + headerBytes + 2 * index) off
      match seen.templ with
      | none => some (Lib.Buffer.putAll mem (tp + off) (List.replicate want 0), off)
      | some t =>
        if t < im.codeStart ∨ (im.codeEnd + (2 ^ 32 - want)) % 2 ^ 32 < t then none
        else some (Lib.Buffer.putAll mem (tp + off) (Lib.Buffer.slice im.code t want), off)

/-- `__emutls_get_address`, with the memory it leaves and the offset of its answer from the thread pointer. -/
def getAddress (mem : Mem) (anchor sp : Nat) (seen : EmutlsObject) : Option (Mem × Nat) :=
  match im.indexOf anchor with
  | none => none
  | some index =>
    if im.tlsTotal ≠ blockBytes then none
    else if blockBytes ≤ im.dataStart then none
    else
      let tp := im.tpOf sp
      match im.openBrk mem tp with
      | none => none
      | some mem =>
        let cached := load16 mem (tp + headerBytes + 2 * index)
        if cached ≠ 0 then
          if cached < im.dataStart ∨ blockBytes ≤ cached then none
          else some (mem, cached)
        else im.allocate mem tp index seen

/-- The stack of thread `th` is block `th` of the strides. -/
def tp (th : Nat) : Nat := th * im.stride + im.reentCarve

end Image

/-- What a thread's first access to an object was given: the offset in its block and the bytes, by the control block it saw. -/
structure Extent where
  off : Nat
  object : EmutlsObject

/-- The memory and the threads whose blocks have been seated, and for the statements what each thread has of each object
and every address it was answered. -/
structure St where
  mem : Mem
  seated : Nat → Bool := fun _ => false
  handed : Nat → Nat → Option Extent := fun _ _ => none
  answers : List (Nat × Nat × Nat) := []

/-- A thread created on a stack, an access by a thread with its stack pointer, and any other store. -/
inductive Act where
  | seat (th : Nat)
  | access (th anchor sp : Nat) (seen : EmutlsObject)
  | store (place : Nat) (v : BitVec 8)

/-- `tls_seat`, for an image whose thread-local segment is the reservation alone and has no initialised bytes. -/
def tlsSeat (mem : Mem) (block : Nat) : Mem := Lib.Buffer.putAll mem block (List.replicate blockBytes 0)

/-- The state behind the creation of a thread. What a thread before it had on the same stack is gone. -/
def St.seat (x : St) (im : Image) (th : Nat) : St where
  mem := tlsSeat x.mem (im.tp th)
  seated := Function.update x.seated th true
  handed := Function.update x.handed th fun _ => none
  answers := x.answers.filter fun t => t.1 ≠ th

def St.answer (x : St) (im : Image) (th index sp : Nat) (seen : EmutlsObject) (r : Mem × Nat) : St where
  mem := r.1
  seated := x.seated
  handed := if (x.handed th index).isSome then x.handed
    else Function.update x.handed th (Function.update (x.handed th) index (some ⟨r.2, seen⟩))
  answers := (th, index, im.tpOf sp + r.2) :: x.answers

/-- The runs of a system in which no access has panicked. The stack pointer of a thread is in its stack, above the base
and up to the top. A store is of any thread and goes anywhere but into the header and the table of a seated block, which
the accesses alone write. -/
inductive Runs (im : Image) : List Act → St → Prop
  | start (mem : Mem) : Runs im [] { mem := mem }
  | seat {acts : List Act} {x : St} (th : Nat) : Runs im acts x → Runs im (acts ++ [.seat th]) (x.seat im th)
  | access {acts : List Act} {x : St} {th anchor sp index : Nat} {seen : EmutlsObject} {r : Mem × Nat} :
    Runs im acts x → x.seated th = true → th * im.stride < sp → sp ≤ (th + 1) * im.stride →
    im.indexOf anchor = some index → im.getAddress x.mem anchor sp seen = some r →
    Runs im (acts ++ [.access th anchor sp seen]) (x.answer im th index sp seen r)
  | store {acts : List Act} {x : St} {place : Nat} (v : BitVec 8) : Runs im acts x →
    (∀ th, x.seated th = true → place < im.tp th ∨ im.tp th + im.dataStart ≤ place) →
    Runs im (acts ++ [.store place v]) { x with mem := Lib.Buffer.put x.mem place v }

end KickOS.Tls
