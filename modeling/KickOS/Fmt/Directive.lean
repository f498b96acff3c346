import Mathlib.Tactic

/-! `kvsnprintf` of `lib/libc/fmt.cc`. A C string is the list of its characters in front of the NUL. -/

namespace KickOS.Fmt

/-- How a target passes the arguments of `...`, a slot of its own width after the other. -/
structure Target where
  /-- Pointers, `long` and `size_t` have 64 bits, not 32. -/
  wide : Bool
  /-- Of the two slots of a 64-bit argument on a 32-bit target, the first is an even one. -/
  aligned : Bool
  /-- Of the two slots of a 64-bit argument on a 32-bit target, the first has the high half. -/
  highFirst : Bool

namespace Target

variable (t : Target)

def bits : Nat := if t.wide then 64 else 32

/-- `SIZE_MAX` and one. -/
def span : Nat := 2 ^ t.bits

end Target

/-- The types `va_arg` is asked for. -/
inductive Ty where
  | int | long | longLong | size | pointer
  deriving DecidableEq

def Target.width (t : Target) : Ty → Nat
  | .int => 32
  | .longLong => 64
  | .long | .size | .pointer => t.bits

/-- The slots of the arguments and the strings of the pointers. -/
structure Memory (t : Target) where
  slot : Nat → BitVec t.bits
  string : Nat → List Char

/-- `va_list`: the next slot and, for the statements only, the widths that were read. -/
structure VaList where
  next : Nat
  widths : List Nat := []

variable {t : Target}

namespace Memory

variable (m : Memory t)

/-- `va_arg`: the bits of the argument and the slot behind it. -/
def vaArg (next : Nat) : Ty → Nat × Nat
  | .int => ((m.slot next).toNat % 2 ^ 32, next + 1)
  | .long | .size | .pointer => ((m.slot next).toNat, next + 1)
  | .longLong =>
    if t.wide then ((m.slot next).toNat, next + 1)
    else
      let first := if t.aligned then next + next % 2 else next
      let (lo, hi) := if t.highFirst then (first + 1, first) else (first, first + 1)
      ((m.slot lo).toNat + (m.slot hi).toNat * 2 ^ 32, first + 2)

def take (ap : VaList) (ty : Ty) : Nat × VaList :=
  ((m.vaArg ap.next ty).1, ⟨(m.vaArg ap.next ty).2, ap.widths ++ [t.width ty]⟩)

end Memory

def Target.signed (t : Target) (ty : Ty) (v : Nat) : Int := (BitVec.ofNat (t.width ty) v).toInt

/-- `Sink`, with the bytes that were stored and where. -/
structure Sink where
  size : Nat
  total : Nat := 0
  stored : List (Char × Nat) := []

namespace Sink

variable (t : Target) (s : Sink)

def put (c : Char) : Sink :=
  { s with
    stored := if 0 < s.size ∧ s.total < s.size - 1 then s.stored ++ [(c, s.total)] else s.stored
    total := (s.total + 1) % t.span }

/-- The loop over the characters of a string. -/
def putAll (s : Sink) (cs : List Char) : Sink := cs.foldl (put t) s

end Sink

def emitStr (t : Target) (s : Sink) (str : Option (List Char)) : Sink := s.putAll t (str.getD "(null)".toList)

/-- A digit of `emit_uint`. -/
def digit (d : Nat) : Char := if d < 10 then Char.ofNat ('0'.toNat + d) else Char.ofNat ('a'.toNat + (d - 10))

/-- The digits in `tmp`, the last one first. -/
def tmpOf (base v : Nat) : List Char :=
  if _h : v = 0 ∨ base ≤ 1 then [] else digit (v % base) :: tmpOf base (v / base)
termination_by v
decreasing_by
  obtain ⟨h0, h1⟩ := not_or.1 _h
  exact Nat.div_lt_self (Nat.pos_of_ne_zero h0) (Nat.lt_of_not_le h1)

def emitUint (t : Target) (s : Sink) (v base : Nat) : Sink := s.putAll t (if v = 0 then ['0'] else (tmpOf base v).reverse)

def emitInt (t : Target) (s : Sink) (v : Int) : Sink :=
  if v < 0 then emitUint t (s.put t '-') ((-(v + 1)).toNat + 1) 10 else emitUint t s v.toNat 10

/-- The type an unsigned directive reads. -/
def unsignedTy (longness : Nat) : Ty :=
  if longness = 3 then .size else if 2 ≤ longness then .longLong else if longness = 1 then .long else .int

def signedTy (longness : Nat) : Ty := if 2 ≤ longness then .longLong else if longness = 1 then .long else .int

/-- The `switch` on the directive. -/
def convert (m : Memory t) (longness : Nat) (c : Char) (s : Sink) (ap : VaList) : Sink × VaList :=
  match c with
  | 's' =>
    let (p, ap) := m.take ap .pointer
    (emitStr t s (if p = 0 then none else some (m.string p)), ap)
  | 'c' =>
    let (v, ap) := m.take ap .int
    (s.put t (Char.ofNat (v % 256)), ap)
  | '%' => (s.put t '%', ap)
  | 'd' | 'i' =>
    let (v, ap) := m.take ap (signedTy longness)
    (emitInt t s (t.signed (signedTy longness) v), ap)
  | 'u' =>
    let (v, ap) := m.take ap (unsignedTy longness)
    (emitUint t s v 10, ap)
  | 'x' =>
    let (v, ap) := m.take ap (unsignedTy longness)
    (emitUint t s v 16, ap)
  | 'p' =>
    let (p, ap) := m.take ap .pointer
    (emitUint t ((s.put t '0').put t 'x') p 16, ap)
  | c => ((s.put t '%').put t c, ap)

/-- Where the scan of the format stands. -/
inductive Mode where
  | text
  /-- Behind a `%` and the given number of `l`. -/
  | directive (longness : Nat)
  /-- Behind the `z`. -/
  | sized

/-- The loop over the format. A format that ends in a directive ends the loop. -/
def scan (m : Memory t) : List Char → Mode → Sink → VaList → Sink × VaList
  | [], _, s, ap => (s, ap)
  | c :: fmt, .text, s, ap => if c = '%' then scan m fmt (.directive 0) s ap else scan m fmt .text (s.put t c) ap
  | c :: fmt, .directive longness, s, ap =>
    if c = 'l' then scan m fmt (.directive (longness + 1)) s ap
    else if c = 'z' then scan m fmt .sized s ap
    else scan m fmt .text (convert m longness c s ap).1 (convert m longness c s ap).2
  | c :: fmt, .sized, s, ap => scan m fmt .text (convert m 3 c s ap).1 (convert m 3 c s ap).2

/-- What a call leaves: the bytes stored, the value returned and the argument list. -/
structure Result where
  stored : List (Char × Nat)
  value : Int
  ap : VaList

def Sink.close (s : Sink) : List (Char × Nat) :=
  if 0 < s.size then s.stored ++ [('\x00', if s.size - 1 < s.total then s.size - 1 else s.total)] else s.stored

def kvsnprintf (m : Memory t) (size : Nat) (fmt : List Char) (next : Nat) : Result :=
  let (s, ap) := scan m fmt .text { size := size } { next := next }
  ⟨s.close, (BitVec.ofNat 32 s.total).toInt, ap⟩

/-! ### What C says of a format: its directives with their arguments, the text of each and what it prints -/

inductive Conv where
  | d | i | u | x
  deriving DecidableEq

/-- The length modifier of an integer directive. -/
inductive Len where
  | none | l | ll | z
  deriving DecidableEq

/-- An ordinary character, or a directive with its argument. -/
inductive Item where
  | ordinary (c : Char) (h : c ≠ '%' ∧ c ≠ '\x00')
  | percent
  | str (p : Nat)
  | chr (v : Nat)
  | ptr (p : Nat)
  | int (conv : Conv) (len : Len) (v : Nat)

def Conv.char : Conv → Char
  | .d => 'd'
  | .i => 'i'
  | .u => 'u'
  | .x => 'x'

def Len.text : Len → List Char
  | .none => []
  | .l => ['l']
  | .ll => ['l', 'l']
  | .z => ['z']

def Len.ty : Len → Ty
  | .none => .int
  | .l => .long
  | .ll => .longLong
  | .z => .size

namespace Item

def text : Item → List Char
  | .ordinary c _ => [c]
  | .percent => ['%', '%']
  | .str _ => ['%', 's']
  | .chr _ => ['%', 'c']
  | .ptr _ => ['%', 'p']
  | .int conv len _ => '%' :: len.text ++ [conv.char]

def ty : Item → Option Ty
  | .ordinary _ _ | .percent => none
  | .str _ | .ptr _ => some .pointer
  | .chr _ => some .int
  | .int _ len _ => some len.ty

def value : Item → Nat
  | .ordinary _ _ | .percent => 0
  | .str p | .ptr p => p
  | .chr v => v
  | .int _ _ v => v

end Item

def decimal (v : Int) : List Char := if v < 0 then '-' :: Nat.toDigits 10 v.natAbs else Nat.toDigits 10 v.natAbs

section Memory

variable (m : Memory t)

def Item.print : Item → List Char
  | .ordinary c _ => [c]
  | .percent => ['%']
  | .str p => m.string p
  | .chr v => [Char.ofNat (v % 256)]
  | .ptr p => ['0', 'x'] ++ Nat.toDigits 16 p
  | .int .u _ v => Nat.toDigits 10 v
  | .int .x _ v => Nat.toDigits 16 v
  | .int .d len v | .int .i len v => decimal (t.signed len.ty v)

/-- The arguments stand from `next` on, each passed with its own type, up to `last`; a `%s` has a string. -/
def Laid : Nat → List Item → Nat → Prop
  | next, [], last => next = last
  | next, it :: its, last =>
    match it.ty with
    | none => Laid next its last
    | some ty => (m.vaArg next ty).1 = it.value ∧ (∀ p, it = .str p → p ≠ 0) ∧ Laid (m.vaArg next ty).2 its last

/-- The longest prefix of `out` that fits, and a NUL. -/
def fitted (size : Nat) (out : List Char) : List (Char × Nat) :=
  if size = 0 then [] else (out.take (size - 1)).zipIdx ++ [('\x00', min out.length (size - 1))]

/-- The call does what C says: it stores the prefix that fits and no other byte, reads each argument with its own width,
and returns the full length when that is an `int`. -/
structure Correct (size next last : Nat) (items : List Item) : Prop where
  stored : (kvsnprintf m size (items.flatMap Item.text) next).stored = fitted size (items.flatMap (Item.print m))
  widths : (kvsnprintf m size (items.flatMap Item.text) next).ap.widths = items.filterMap fun it => it.ty.map t.width
  last : (kvsnprintf m size (items.flatMap Item.text) next).ap.next = last
  value : (items.flatMap (Item.print m)).length < 2 ^ 31 →
    (kvsnprintf m size (items.flatMap Item.text) next).value = (items.flatMap (Item.print m)).length

end Memory

end KickOS.Fmt
