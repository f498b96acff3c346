import KickOS.Lib.Buffer
import KickOS.Range.Apart

/-! The argument block of a task's entry thread (`kernel/syscall/syscall_thread.cc`): the caller's vector is measured,
and copied onto the new stack in a second pass. Each byte the kernel reads of the caller is read at a time of its own,
and other threads may have written it in between. -/

namespace KickOS.Argv
open Range Lib Buffer

variable {w n : Nat}

/-! ### What the caller may read -/

/-- `arch_mpu_region`. -/
structure Region (w : Nat) where
  base : BitVec w
  size : BitVec w
  attr : BitVec 32

def mpuR : BitVec 32 := 1

def mpuDev : BitVec 32 := 8

def mapR : BitVec 32 := 1

/-- A region of the set answers for `[ptr, stop)`. -/
def Region.holds (r : Region w) (ptr stop : BitVec w) : Prop :=
  r.attr &&& mpuR = mpuR ∧ r.attr &&& mpuDev = 0 ∧ r.base ≤ r.base + r.size ∧ r.base ≤ ptr ∧ stop ≤ r.base + r.size

instance (r : Region w) (ptr stop : BitVec w) : Decidable (r.holds ptr stop) := inferInstanceAs (Decidable (_ ∧ _))

/-- `range_within`. -/
def within (ptr stop : BitVec w) (bounds : BitVec w × BitVec w) : Prop := bounds.1 < bounds.2 ∧ bounds.1 ≤ ptr ∧ stop ≤ bounds.2

instance (ptr stop : BitVec w) (bounds : BitVec w × BitVec w) :
    Decidable (within ptr stop bounds) := inferInstanceAs (Decidable (_ ∧ _))

/-- `arch_user_text_readable` of a backend: of one that enforces, of one that does not, with its code and its static
memory, and of the sim, with the host's image and the arena in it. -/
inductive Hook (w : Nat) where
  | enforced
  | linked (extents : List (BitVec w × BitVec w))
  | image (start stop : BitVec w) (arena : Option (BitVec w × BitVec w))

def Hook.readable (ptr len : BitVec w) : Hook w → Bool
  | .enforced => false
  | .linked extents => len = 0 ∨ (ptr ≤ ptr + len ∧ ∃ e ∈ extents, within ptr (ptr + len) e)
  | .image start stop arena =>
    len = 0 ∨ (ptr ≤ ptr + len ∧ within ptr (ptr + len) (start, stop) ∧ arena.all fun a => ¬ (ptr < a.1 + a.2 ∧ a.1 < ptr + len))

/-- The calling thread: its regions, the code window where there is one, and its domain's ranges on a translating backend. -/
structure Caller (w n : Nat) where
  regions : List (Region w)
  window : Option (BitVec w × BitVec w)
  ranges : Option (VirtualRanges w n)
  hook : Hook w
  whole : ∀ v ∈ ranges, Inv v
  /-- An address has 32 bits or more. -/
  wide : 32 ≤ w

namespace Caller

variable (c : Caller w n) (ptr len : BitVec w)

/-- `thread_range_ok` of a read. -/
def rangeOk : Bool :=
  if len = 0 then true
  else if ptr + len < ptr then false
  else
    (∃ r ∈ c.regions, r.holds ptr (ptr + len)) ∨ (∃ b ∈ c.window, b.1 ≤ ptr ∧ ptr + len ≤ b.2) ∨
      ∃ v ∈ c.ranges, v.covers ptr len mapR = true

/-- `user_readable_ok`. -/
def readableOk : Bool := c.rangeOk ptr len || c.hook.readable ptr len

/-- The halving of `user_readable_prefix`. -/
def halve (s : BitVec w) : Nat → Nat → Nat → Nat
  | 0, lo, _ => lo
  | fuel + 1, lo, hi =>
    if 1 < hi - lo then
      if c.readableOk s (BitVec.ofNat w (lo + (hi - lo) / 2)) then halve s fuel (lo + (hi - lo) / 2) hi
      else halve s fuel lo (lo + (hi - lo) / 2)
    else lo

/-- `user_readable_prefix`. -/
def readableLen (s : BitVec w) (room : Nat) : Nat := if c.readableOk s (BitVec.ofNat w room) then room else c.halve s room 0 room

end Caller

/-! ### Reading it -/

/-- The caller's memory: a byte at a time, and whether its granule can be acquired then. -/
structure World (w : Nat) where
  byte : Nat → BitVec w → BitVec 8
  acquire : Nat → BitVec w → Bool
  granule : BitVec w

/-- The time, and the addresses read so far. -/
structure Io (w : Nat) where
  now : Nat := 0
  reads : List (BitVec w) := []

/-- The bytes a copy has written, and whether it was whole. -/
structure Copied (w : Nat) where
  io : Io w
  bytes : List (BitVec 8)
  ok : Bool

/-- `kaccess_from_user`, which acquires where it starts and at each granule. What it has copied when an acquire fails stays. -/
def World.copyIn (m : World w) (first : Bool) (src : BitVec w) : Nat → Io w → Copied w
  | 0, io => ⟨io, [], true⟩
  | k + 1, io =>
    if (first = true ∨ src &&& (m.granule - 1) = 0) ∧ m.acquire io.now src = false then ⟨io, [], false⟩
    else
      let rest := m.copyIn false (src + 1) k ⟨io.now + 1, src :: io.reads⟩
      ⟨rest.io, m.byte io.now src :: rest.bytes, rest.ok⟩

/-- How a word stands in memory. -/
structure Order (w : Nat) where
  split : BitVec w → List (BitVec 8)
  join : List (BitVec 8) → BitVec w
  length_split : ∀ x, (split x).length = w / 8
  join_split : ∀ x, join (split x) = x

inductive Err where
  | efault | einval | enoent
  deriving DecidableEq

def nameChunk : Nat := 8

/-- The scan of a chunk, which stands at `pos` of the string. -/
def scan (own : Option (Nat → BitVec 8)) (pos : Nat) : List (BitVec 8) → Option (Except Err Nat)
  | [] => none
  | b :: bs =>
    if ∃ o ∈ own, b ≠ o pos then some (.error .enoent)
    else if b = 0 then some (.ok pos)
    else scan own (pos + 1) bs

/-- The loop of `user_string_len`. -/
def stringFrom (c : Caller w n) (m : World w) (own : Option (Nat → BitVec 8)) (s : BitVec w) (room : Nat) :
    Nat → Nat → Io w → Io w × Except Err Nat
  | 0, _, io => (io, .error .einval)
  | fuel + 1, pos, io =>
    if pos < room then
      let want := min (room - pos) nameChunk
      let k := c.readableLen (s + BitVec.ofNat w pos) want
      if k = 0 then (io, .error .efault)
      else
        let chunk := m.copyIn true (s + BitVec.ofNat w pos) k io
        if chunk.ok = false then (chunk.io, .error .efault)
        else
          match scan own pos chunk.bytes with
          | some r => (chunk.io, r)
          | none => if k < want then (chunk.io, .error .efault) else stringFrom c m own s room fuel (pos + k) chunk.io
    else (io, .error .einval)

/-- `user_string_len`. -/
def stringLen (c : Caller w n) (m : World w) (own : Option (Nat → BitVec 8)) (s : BitVec w) (room : Nat) (io : Io w) :
    Io w × Except Err Nat :=
  stringFrom c m own s room room 0 io

/-- A pointer of the caller's vector, if it can be read. -/
def slotIn (c : Caller w n) (m : World w) (ord : Order w) (vector : BitVec w) (i : Nat) (io : Io w) : Io w × Option (BitVec w) :=
  let slot := vector + BitVec.ofNat w (i * (w / 8))
  if c.readableOk slot (BitVec.ofNat w (w / 8)) then
    let word := m.copyIn true slot (w / 8) io
    (word.io, if word.ok then some (ord.join word.bytes) else none)
  else (io, none)

/-! ### The block -/

/-- `KICKOS_ARGV_MAX`, `KICKOS_MAX_ARGC`, `KICKOS_STACK_ALIGN` and `KICKOS_MIN_STACK_SIZE`. -/
structure Config where
  argvMax : Nat
  maxArgc : Nat
  stackAlign : Nat
  minStack : Nat
  argvMax_le : argvMax ≤ 65535
  align_pos : 0 < stackAlign

/-- `ArgBlock`: without a vector the strings are the name alone. -/
structure ArgBlock (w : Nat) where
  vector : BitVec w
  name : List (BitVec 8)
  argc : Nat
  decl : Nat
  bytes : Nat

/-- The loop of `argv_in` over the vector. -/
def measure (cfg : Config) (c : Caller w n) (m : World w) (ord : Order w) (vector : BitVec w) :
    Nat → Nat → Nat → Io w → Io w × Except Err (Nat × Nat)
  | 0, _, _, io => (io, .error .einval)
  | fuel + 1, argc, used, io =>
    match slotIn c m ord vector argc io with
    | (io, none) => (io, .error .efault)
    | (io, some su) =>
      if su = 0 then (io, .ok (argc, used))
      else if used = cfg.argvMax ∨ argc = cfg.maxArgc then (io, .error .einval)
      else
        match stringLen c m none su (cfg.argvMax - used) io with
        | (io, .error e) => (io, .error e)
        | (io, .ok len) => measure cfg c m ord vector fuel (argc + 1) (used + len + 1) io

/-- `argv_in`. -/
def argvIn (cfg : Config) (c : Caller w n) (m : World w) (ord : Order w) (argv : BitVec w) (name : List (BitVec 8))
    (decl : Nat) (io : Io w) : Io w × Except Err (ArgBlock w) :=
  if argv = 0 then
    if cfg.argvMax < name.length + 1 then (io, .error .einval)
    else (io, .ok ⟨0, name, 1, decl, (name.length + 1) % 2 ^ 16⟩)
  else if argv &&& (BitVec.ofNat w (w / 8) - 1) ≠ 0 then (io, .error .efault)
  else
    match measure cfg c m ord argv (cfg.maxArgc + 1) 0 0 io with
    | (io, .error e) => (io, .error e)
    | (io, .ok (argc, used)) => (io, .ok ⟨argv, name, argc % 2 ^ 16, decl, used % 2 ^ 16⟩)

/-- Where the strings start in the block. -/
def ArgBlock.strings (a : ArgBlock w) : Nat := (4 + a.argc) * (w / 8)

/-- `arg_block_size`. -/
def argBlockSize (cfg : Config) (a : ArgBlock w) : Nat :=
  (a.strings + a.bytes + cfg.stackAlign - 1) / cfg.stackAlign * cfg.stackAlign

section Write

variable (c : Caller w n) (m : World w) (ord : Order w) (a : ArgBlock w) (k : Nat) (va block : BitVec w)

def storeWord (b : Nat → BitVec 8) (i : Nat) (x : BitVec w) : Nat → BitVec 8 := putAll b (k + i * (w / 8)) (ord.split x)

def storeString (b : Nat → BitVec 8) (pos : Nat) (s : List (BitVec 8)) : Nat → BitVec 8 :=
  put (putAll b (k + a.strings + pos) s) (k + a.strings + pos + s.length) 0

/-- The loop of `arg_block_write`, from string `i` on, whose bytes start at `pos`, and the word behind it. -/
def writeFrom : Nat → Nat → Nat → (Nat → BitVec 8) → Io w → Io w × (Nat → BitVec 8) × Option Err
  | 0, i, _, b, io => (io, storeWord ord k b (3 + i) 0, none)
  | left + 1, i, pos, b, io =>
    let b := storeWord ord k b (3 + i) (va + BitVec.ofNat w (a.strings + pos))
    if a.vector = 0 then writeFrom left (i + 1) (pos + a.name.length + 1) (storeString a k b pos a.name) io
    else
      match slotIn c m ord a.vector i io with
      | (io, none) => (io, b, some .efault)
      | (io, some su) =>
        match stringLen c m none su (a.bytes - pos) io with
        | (io, .error _) => (io, b, some .efault)
        | (io, .ok len) =>
          let copied := m.copyIn true su len io
          if copied.ok then writeFrom left (i + 1) (pos + len + 1) (storeString a k b pos copied.bytes) copied.io
          else (copied.io, putAll b (k + a.strings + pos) copied.bytes, some .efault)

/-- `arg_block_write`. -/
def argBlockWrite (b : Nat → BitVec 8) (io : Io w) : Io w × (Nat → BitVec 8) × Option Err :=
  let b := storeWord ord k b 0 (BitVec.ofNat w a.argc)
  let b := storeWord ord k b 1 (BitVec.ofNat w a.decl)
  let b := storeWord ord k b 2 block
  writeFrom c m ord a k va a.argc 0 0 b io

end Write

/-- What the spawn does with the block: it comes off the top of the stack, which is `stackSize` bytes from `stack` on
and in the buffer from zero on. -/
def placeBlock (cfg : Config) (c : Caller w n) (m : World w) (ord : Order w) (a : ArgBlock w) (stack : BitVec w)
    (stackSize carve : Nat) (block : BitVec w) (b : Nat → BitVec 8) (io : Io w) :
    Io w × (Nat → BitVec 8) × Option Err :=
  if stackSize < argBlockSize cfg a + cfg.minStack + carve then (io, b, some .einval)
  else
    argBlockWrite c m ord a (stackSize - argBlockSize cfg a)
      (stack + BitVec.ofNat w stackSize - BitVec.ofNat w (argBlockSize cfg a)) block b
      io

/-- A create's two passes, and the block it has placed. -/
def createArgs (cfg : Config) (c : Caller w n) (m : World w) (ord : Order w) (argv : BitVec w)
    (name : List (BitVec 8)) (decl : Nat) (stack : BitVec w) (stackSize carve : Nat) (block : BitVec w)
    (b : Nat → BitVec 8) (io : Io w) : Io w × (Nat → BitVec 8) × Except Err (ArgBlock w) :=
  match argvIn cfg c m ord argv name decl io with
  | (io, .error e) => (io, b, .error e)
  | (io, .ok a) =>
    match placeBlock cfg c m ord a stack stackSize carve block b io with
    | (io, b, some e) => (io, b, .error e)
    | (io, b, none) => (io, b, .ok a)

end KickOS.Argv
