import Mathlib.Tactic

/-! The telemetry records (`include/kickos/trace/record.h`): what a record holds, and its bytes on the wire,
little-endian and of one length for each type. The decoder of a capture (`tools/kicktrace.py`) is the loop of `parse`
turn by turn, with the resynchronisation on the magic of a session. A read behind the end of the data raises, which is
`none`, and so is a turn that would raise. -/

namespace KickOS.Trace

/-- Bytes, as they stand in a capture or in the ring. -/
abbrev Bytes := List (BitVec 8)

def evSession : BitVec 8 := 1
def evSwitch : BitVec 8 := 2
def evSyscallEnter : BitVec 8 := 3
def evSyscallExit : BitVec 8 := 4
def evIrqEnter : BitVec 8 := 5
def evIrqExit : BitVec 8 := 6

def traceMagic : BitVec 32 := 0x4B545243

def traceVersion : BitVec 8 := 1

def putU8 (v : BitVec 8) : Bytes := [v]

def putU16 (v : BitVec 16) : Bytes := [v.setWidth 8, (v >>> 8).setWidth 8]

def putU32 (v : BitVec 32) : Bytes := [v.setWidth 8, (v >>> 8).setWidth 8, (v >>> 16).setWidth 8, (v >>> 24).setWidth 8]

def putU64 (v : BitVec 64) : Bytes := putU32 (v.setWidth 32) ++ putU32 ((v >>> 32).setWidth 32)

def putPrefix (type : BitVec 8) (seq : BitVec 16) (t : BitVec 32) : Bytes := putU8 type ++ putU16 seq ++ putU32 t

/-- What a record says beyond its number and its time. -/
inductive Event where
  | session (ver arch tsBits : BitVec 8) (probeOverhead : BitVec 16) (recordsAttempted : BitVec 32) (tAnchor : BitVec 64)
  | switch (fromTid toTid : BitVec 16)
  | syscallEnter (tid nr : BitVec 16)
  | syscallExit (tid nr : BitVec 16)
  | irqEnter (line : BitVec 16)
  | irqExit (line : BitVec 16)
  deriving DecidableEq

namespace Event

def type : Event → BitVec 8
  | session .. => evSession
  | switch .. => evSwitch
  | syscallEnter .. => evSyscallEnter
  | syscallExit .. => evSyscallExit
  | irqEnter .. => evIrqEnter
  | irqExit .. => evIrqExit

def payload : Event → Bytes
  | session ver arch tsBits probeOverhead recordsAttempted tAnchor =>
    putU32 traceMagic ++ putU8 ver ++ putU8 arch ++ putU8 tsBits ++ putU16 probeOverhead ++ putU32 recordsAttempted ++
      putU64 tAnchor
  | switch a b | syscallEnter a b | syscallExit a b => putU16 a ++ putU16 b
  | irqEnter line | irqExit line => putU16 line

end Event

structure Record where
  event : Event
  seq : BitVec 16
  t : BitVec 32
  deriving DecidableEq

def Record.bytes (r : Record) : Bytes := putPrefix r.event.type r.seq r.t ++ r.event.payload

section Encoders

variable (seq : BitVec 16) (t : BitVec 32)

def encodeSession (arch tsBits : BitVec 8) (probeOverhead : BitVec 16) (recordsAttempted : BitVec 32)
    (tAnchor : BitVec 64) : Bytes :=
  putPrefix evSession seq t ++ (putU32 traceMagic ++ putU8 traceVersion ++ putU8 arch ++ putU8 tsBits ++ putU16 probeOverhead ++
    putU32 recordsAttempted ++ putU64 tAnchor)

def encodePair (type : BitVec 8) (a b : BitVec 16) : Bytes := putPrefix type seq t ++ (putU16 a ++ putU16 b)

def encodeSwitch (fromTid toTid : BitVec 16) : Bytes := encodePair seq t evSwitch fromTid toTid

def encodeSyscallEnter (tid nr : BitVec 16) : Bytes := encodePair seq t evSyscallEnter tid nr

def encodeSyscallExit (tid nr : BitVec 16) : Bytes := encodePair seq t evSyscallExit tid nr

def encodeLine (type : BitVec 8) (line : BitVec 16) : Bytes := putPrefix type seq t ++ putU16 line

def encodeIrqEnter (line : BitVec 16) : Bytes := encodeLine seq t evIrqEnter line

def encodeIrqExit (line : BitVec 16) : Bytes := encodeLine seq t evIrqExit line

end Encoders

/-- `REC_LEN`, the length of a record by its type. -/
def recLen (type : BitVec 8) : Option Nat :=
  if type = evSession then some 28
  else if type = evSwitch then some 11
  else if type = evSyscallEnter ∨ type = evSyscallExit then some 11
  else if type = evIrqEnter ∨ type = evIrqExit then some 9
  else none

/-- `b[o]`. -/
def u8 (b : Bytes) (o : Nat) : Option (BitVec 8) := b[o]?

def u16 (b : Bytes) (o : Nat) : Option (BitVec 16) := do
  let x ← b[o]?
  let y ← b[o + 1]?
  return x.setWidth 16 ||| (y.setWidth 16 <<< 8)

/-- `struct.unpack_from("<I", b, o)[0]`. -/
def u32 (b : Bytes) (o : Nat) : Option (BitVec 32) := do
  let x ← b[o]?
  let y ← b[o + 1]?
  let z ← b[o + 2]?
  let w ← b[o + 3]?
  return x.setWidth 32 ||| (y.setWidth 32 <<< 8) ||| (z.setWidth 32 <<< 16) ||| (w.setWidth 32 <<< 24)

/-- `struct.unpack_from("<Q", b, o)[0]`. -/
def u64 (b : Bytes) (o : Nat) : Option (BitVec 64) := do
  let lo ← u32 b o
  let hi ← u32 b (o + 4)
  return lo.setWidth 64 ||| (hi.setWidth 64 <<< 32)

section Words

theorem u16_word {x y : BitVec 8} {v : BitVec 16} :
    x.setWidth 16 ||| (y.setWidth 16 <<< 8) = v ↔ x = v.setWidth 8 ∧ y = (v >>> 8).setWidth 8 := by
  constructor
  · rintro rfl
    constructor
    · ext i hi
      simp
    · ext i hi
      simp
      grind
  · rintro ⟨rfl, rfl⟩
    ext i hi
    simp
    grind

theorem u32_word {x y z w : BitVec 8} {v : BitVec 32} :
    x.setWidth 32 ||| (y.setWidth 32 <<< 8) ||| (z.setWidth 32 <<< 16) ||| (w.setWidth 32 <<< 24) = v ↔
      x = v.setWidth 8 ∧ y = (v >>> 8).setWidth 8 ∧ z = (v >>> 16).setWidth 8 ∧ w = (v >>> 24).setWidth 8 := by
  constructor
  · rintro rfl
    refine ⟨?_, ?_, ?_, ?_⟩
    all_goals ext i hi
    · simp
    all_goals
      simp
      grind
  · rintro ⟨rfl, rfl, rfl, rfl⟩
    ext i hi
    simp
    grind

theorem u64_word {lo hi : BitVec 32} {v : BitVec 64} :
    lo.setWidth 64 ||| (hi.setWidth 64 <<< 32) = v ↔ lo = v.setWidth 32 ∧ hi = (v >>> 32).setWidth 32 := by
  constructor
  · rintro rfl
    constructor
    · ext i hi
      simp
    · ext i hi
      simp
      grind
  · rintro ⟨rfl, rfl⟩
    ext i hi
    simp
    grind

end Words

/-- The bytes `l` stand in `b` at offset `o`. -/
def Holds (b : Bytes) (o : Nat) (l : Bytes) : Prop := l <+: b.drop o

section Reads

variable {b l l' : Bytes} {o : Nat}

theorem holds_append : Holds b o (l ++ l') ↔ Holds b o l ∧ Holds b (o + l.length) l' := by
  unfold Holds
  constructor
  · rintro ⟨rest, hr⟩
    refine ⟨⟨l' ++ rest, by rw [← hr, List.append_assoc]⟩, rest, ?_⟩
    rw [← List.drop_drop, ← hr, List.append_assoc, List.drop_left]
  · rintro ⟨⟨rest, hr⟩, rest', hr'⟩
    refine ⟨rest', ?_⟩
    rw [← List.drop_drop, ← hr, List.drop_left] at hr'
    rw [List.append_assoc, hr', hr]

theorem Holds.le (h : Holds b o l) (hl : l ≠ []) : o + l.length ≤ b.length := by
  have hle : l.length ≤ (b.drop o).length := h.length_le
  have hpos : 0 < l.length := List.length_pos_of_ne_nil hl
  rw [List.length_drop] at hle
  omega

theorem holds_cons {x : BitVec 8} : Holds b o (x :: l) ↔ b[o]? = some x ∧ Holds b (o + 1) l := by
  rw [← List.singleton_append, holds_append, List.length_singleton]
  refine and_congr_left fun _ => ?_
  unfold Holds
  rw [← List.head?_drop]
  cases b.drop o with
  | nil => simp
  | cons y t => simp [eq_comm]

theorem holds_nil : Holds b o [] := List.nil_prefix

theorem u8_eq_some {v : BitVec 8} : u8 b o = some v ↔ Holds b o (putU8 v) := by
  simp [u8, putU8, holds_cons, holds_nil]

theorem u16_eq_some {v : BitVec 16} : u16 b o = some v ↔ Holds b o (putU16 v) := by
  simp only [u16, putU16, holds_cons, holds_nil, and_true, Option.bind_eq_bind, Option.bind_eq_some_iff,
    Option.pure_def, Option.some.injEq, u16_word]
  constructor
  · rintro ⟨x, hx, y, hy, rfl, rfl⟩
    exact ⟨hx, hy⟩
  · rintro ⟨hx, hy⟩
    exact ⟨_, hx, _, hy, rfl, rfl⟩

theorem u32_eq_some {v : BitVec 32} : u32 b o = some v ↔ Holds b o (putU32 v) := by
  simp only [u32, putU32, holds_cons, holds_nil, and_true, Option.bind_eq_bind, Option.bind_eq_some_iff,
    Option.pure_def, Option.some.injEq, u32_word]
  constructor
  · rintro ⟨x, hx, y, hy, z, hz, w, hw, rfl, rfl, rfl, rfl⟩
    exact ⟨hx, hy, hz, hw⟩
  · rintro ⟨hx, hy, hz, hw⟩
    exact ⟨_, hx, _, hy, _, hz, _, hw, rfl, rfl, rfl, rfl⟩

theorem u64_eq_some {v : BitVec 64} : u64 b o = some v ↔ Holds b o (putU64 v) := by
  simp only [u64, putU64, holds_append, ← u32_eq_some, Option.bind_eq_bind, Option.bind_eq_some_iff, Option.pure_def,
    Option.some.injEq, u64_word]
  constructor
  · rintro ⟨x, hx, y, hy, rfl, rfl⟩
    exact ⟨hx, hy⟩
  · rintro ⟨hx, hy⟩
    exact ⟨_, hx, _, hy, rfl, rfl⟩

theorem u8_of_le (h : o + 1 ≤ b.length) : ∃ v, u8 b o = some v := ⟨_, List.getElem?_eq_getElem h⟩

theorem u16_of_le (h : o + 2 ≤ b.length) : ∃ v, u16 b o = some v := by
  obtain ⟨x, hx⟩ := u8_of_le (show o + 1 ≤ b.length by omega)
  obtain ⟨y, hy⟩ := u8_of_le (show o + 1 + 1 ≤ b.length by omega)
  unfold u8 at hx hy
  simp [u16, hx, hy]

theorem u32_of_le (h : o + 4 ≤ b.length) : ∃ v, u32 b o = some v := by
  obtain ⟨x, hx⟩ := u8_of_le (show o + 1 ≤ b.length by omega)
  obtain ⟨y, hy⟩ := u8_of_le (show o + 1 + 1 ≤ b.length by omega)
  obtain ⟨z, hz⟩ := u8_of_le (show o + 2 + 1 ≤ b.length by omega)
  obtain ⟨w, hw⟩ := u8_of_le (show o + 3 + 1 ≤ b.length by omega)
  unfold u8 at hx hy hz hw
  simp [u32, hx, hy, hz, hw]

theorem u64_of_le (h : o + 8 ≤ b.length) : ∃ v, u64 b o = some v := by
  obtain ⟨x, hx⟩ := u32_of_le (show o + 4 ≤ b.length by omega)
  obtain ⟨y, hy⟩ := u32_of_le (show o + 4 + 4 ≤ b.length by omega)
  simp [u64, hx, hy]

end Reads

instance (b : Bytes) (o : Nat) (l : Bytes) : Decidable (Holds b o l) := inferInstanceAs (Decidable (l <+: b.drop o))

/-- `data.find(needle, start)`. -/
def find (data needle : Bytes) (start : Nat) : Option Nat :=
  (List.range' start (data.length - start)).find? fun j => decide (Holds data j needle)

theorem find_eq_some {data needle : Bytes} {start j : Nat} (h : find data needle start = some j) :
    start ≤ j ∧ j < data.length ∧ Holds data j needle ∧ ∀ k, start ≤ k → k < j → ¬ Holds data k needle := by
  obtain ⟨hj, hmem, hfirst⟩ := List.find?_range'_eq_some.mp h
  rw [List.mem_range'_1] at hmem
  refine ⟨hmem.1, by omega, of_decide_eq_true hj, ?_⟩
  intro k hk hkj
  simpa using hfirst k hk hkj

theorem find_eq_none {data needle : Bytes} {start : Nat} (hne : needle ≠ []) (h : find data needle start = none)
    (k : Nat) (hk : start ≤ k) : ¬ Holds data k needle := by
  intro hat
  have hle := hat.le hne
  have hlen := List.length_pos_of_ne_nil hne
  have hnot := List.find?_range'_eq_none.mp h k hk (by omega)
  simp [hat] at hnot

def findMagic (data : Bytes) (start : Nat) : Option Nat :=
  match h : find data (putU32 traceMagic) start with
  | none => none
  | some j => if 7 ≤ j ∧ data[j - 7]? = some evSession then some (j - 7) else findMagic data (j + 1)
termination_by data.length - start
decreasing_by
  have := find_eq_some h
  omega

/-- What a turn of the loop does: it takes a record of a length, goes on at another position, or breaks. -/
inductive Turn where
  | record (r : Record) (rl : Nat)
  | resync (error : String) (j : Nat)
  | stop (error : String)

/-- The branch of an unknown type and of a truncated tail. -/
def skipTail (data : Bytes) (i : Nat) : Turn :=
  match findMagic data (i + 1) with
  | none =>
    let left := data.length - i
    .stop s!"unparseable tail at offset {i} ({left} bytes)"
  | some j =>
    let skipped := (j : Int) - i
    .resync s!"resync: skipped {skipped} bytes at offset {i}" j

/-- The branch of a session without its magic. -/
def skipSession (data : Bytes) (i : Nat) : Turn :=
  match findMagic data (i + 1) with
  | none => .stop s!"bad SESSION magic at {i}, no resync"
  | some j =>
    let skipped := (j : Int) - i
    .resync s!"bad SESSION magic at {i}; resync +{skipped}" j

/-- The fields of a record that is no session. `recLen` has no type beyond these. -/
def fields (data : Bytes) (i : Nat) (t : BitVec 8) : Option Event := do
  if t = evSwitch then return .switch (← u16 data (i + 7)) (← u16 data (i + 9))
  else if t = evSyscallEnter then return .syscallEnter (← u16 data (i + 7)) (← u16 data (i + 9))
  else if t = evSyscallExit then return .syscallExit (← u16 data (i + 7)) (← u16 data (i + 9))
  else if t = evIrqEnter then return .irqEnter (← u16 data (i + 7))
  else if t = evIrqExit then return .irqExit (← u16 data (i + 7))
  else none

def sessionFields (data : Bytes) (i : Nat) : Option Event := do
  return .session (← u8 data (i + 11)) (← u8 data (i + 12)) (← u8 data (i + 13)) (← u16 data (i + 14)) (← u32 data (i + 16))
    (← u64 data (i + 20))

/-- A turn at position `i`, which the loop has found before the end. -/
def turn (data : Bytes) (i : Nat) : Option Turn := do
  let t ← data[i]?
  match recLen t with
  | none => return skipTail data i
  | some rl =>
    if data.length < i + rl then return skipTail data i
    else
      let seq ← u16 data (i + 1)
      let ts ← u32 data (i + 3)
      if t = evSession then
        let magic ← u32 data (i + 7)
        if magic ≠ traceMagic then return skipSession data i
        else return .record ⟨← sessionFields data i, seq, ts⟩ rl
      else return .record ⟨← fields data i t, seq, ts⟩ rl

/-- The state of the loop. A record is kept with the position it was read from. -/
structure Walk where
  i : Nat := 0
  recs : List (Nat × Record) := []
  errors : List String := []

/-- A turn of the loop, with whether the loop goes on. -/
def Walk.step (data : Bytes) (w : Walk) : Option (Bool × Walk) :=
  match turn data w.i with
  | none => none
  | some (.record r rl) => some (true, { w with i := w.i + rl, recs := w.recs ++ [(w.i, r)] })
  | some (.resync error j) => some (true, { w with i := j, errors := w.errors ++ [error] })
  | some (.stop error) => some (false, { w with errors := w.errors ++ [error] })

/-- The loop, for at most `fuel` turns. -/
def walk (data : Bytes) : Nat → Walk → Option Walk
  | 0, w => if w.i < data.length then none else some w
  | fuel + 1, w =>
    if w.i < data.length then
      match w.step data with
      | none => none
      | some (true, w') => walk data fuel w'
      | some (false, w') => some w'
    else some w

/-- `parse`, for at most `fuel` turns of its loop. -/
def parse (data : Bytes) (fuel : Nat) : Option (List Record × List String) :=
  (walk data fuel {}).map fun w => (w.recs.map Prod.snd, w.errors)

/-- The states the loop of `parse` comes to. -/
inductive Reaches (data : Bytes) : Walk → Prop
  | start : Reaches data {}
  | next {w w' : Walk} : Reaches data w → w.i < data.length → w.step data = some (true, w') → Reaches data w'

end KickOS.Trace
