import Mathlib.Tactic
import KickOS.Lib.Linear

/-! The lanes of `user/src/user_atomic.cc`: a 1-, 2- or 4-byte object as a field of the aligned word that holds it. -/

namespace KickOS.Atomic

/-- The size of an object, `sizeof(T)`. -/
inductive Size where
  | one | two | four
  deriving DecidableEq

def Size.bytes : Size → Nat
  | .one => 1
  | .two => 2
  | .four => 4

def Size.bits (T : Size) : Nat := T.bytes * 8

/-- `Lane`, the word by its address. -/
structure Lane where
  word : Nat
  shift : Nat
  mask : BitVec 32

/-- `lane_of`, in the byte order of the target. -/
def laneOf (big : Bool) (T : Size) (p : Nat) : Lane where
  word := p - p % 4
  shift := if big then (4 - T.bytes - p % 4) * 8 else p % 4 * 8
  mask := (BitVec.allOnes T.bits).setWidth 32 <<< if big then (4 - T.bytes - p % 4) * 8 else p % 4 * 8

namespace Lane

variable (lane : Lane) (T : Size)

def field (w : BitVec 32) : BitVec T.bits := ((w &&& lane.mask) >>> lane.shift).setWidth T.bits

/-- The word with the object's value replaced. -/
def next {T : Size} (w : BitVec 32) (now : BitVec T.bits) : BitVec 32 :=
  (w &&& ~~~lane.mask) ||| ((now.setWidth 32 <<< lane.shift) &&& lane.mask)

end Lane

/-- The byte of a word at the given offset. -/
def byteOf (big : Bool) (w : BitVec 32) (off : Nat) : BitVec 8 := (w >>> ((if big then 3 - off else off) * 8)).setWidth 8

section Bits

variable {big : Bool} {T : Size} {p : Nat}

theorem off_le (hp : T.bytes ∣ p) : p % 4 + T.bytes ≤ 4 := by
  cases T with
  | one =>
    dsimp only [Size.bytes]
    omega
  | two =>
    dsimp only [Size.bytes] at hp ⊢
    omega
  | four =>
    dsimp only [Size.bytes] at hp ⊢
    omega

theorem shift_le (big : Bool) (hp : T.bytes ∣ p) : (laneOf big T p).shift + T.bits ≤ 32 := by
  have h := off_le hp
  unfold laneOf Size.bits
  dsimp only
  split
  · omega
  · omega

theorem getLsbD_mask (hp : T.bytes ∣ p) (j : Nat) :
    (laneOf big T p).mask.getLsbD j = decide ((laneOf big T p).shift ≤ j ∧ j < (laneOf big T p).shift + T.bits) := by
  have hle := shift_le big hp
  obtain ⟨sh, hsh⟩ : ∃ sh, sh = (laneOf big T p).shift := ⟨_, rfl⟩
  have hmask : (laneOf big T p).mask = (BitVec.allOnes T.bits).setWidth 32 <<< sh := by rw [hsh]; rfl
  rw [← hsh] at hle ⊢
  rw [hmask, BitVec.getLsbD_shiftLeft, BitVec.getLsbD_setWidth, BitVec.getLsbD_allOnes]
  rw [Bool.eq_iff_iff]
  simp only [Bool.and_eq_true, decide_eq_true_eq, Bool.not_eq_true', decide_eq_false_iff_not]
  omega

theorem getLsbD_field (hp : T.bytes ∣ p) (w : BitVec 32) {i : Nat} (hi : i < T.bits) :
    ((laneOf big T p).field T w).getLsbD i = w.getLsbD ((laneOf big T p).shift + i) := by
  unfold Lane.field
  rw [BitVec.getLsbD_setWidth, BitVec.getLsbD_ushiftRight, BitVec.getLsbD_and, getLsbD_mask hp]
  simp [hi]

theorem getLsbD_next (hp : T.bytes ∣ p) (w : BitVec 32) (now : BitVec T.bits) (j : Nat) :
    ((laneOf big T p).next w now).getLsbD j =
      if (laneOf big T p).shift ≤ j ∧ j < (laneOf big T p).shift + T.bits then
        now.getLsbD (j - (laneOf big T p).shift) else w.getLsbD j := by
  have hle := shift_le big hp
  unfold Lane.next
  rw [BitVec.getLsbD_or, BitVec.getLsbD_and, BitVec.getLsbD_not, BitVec.getLsbD_and, getLsbD_mask hp, BitVec.getLsbD_shiftLeft,
    BitVec.getLsbD_setWidth]
  split
  next h =>
    have h1 : j < 32 := by omega
    have h2 : j - (laneOf big T p).shift < 32 := by omega
    have h3 : ¬ j < (laneOf big T p).shift := by omega
    simp [h, h1, h2, h3]
  next h =>
    by_cases hj : j < 32
    · simp [h, hj]
    · simp [h, hj, BitVec.getLsbD_of_ge w j (by omega)]

theorem field_next (hp : T.bytes ∣ p) (w : BitVec 32) (now : BitVec T.bits) :
    (laneOf big T p).field T ((laneOf big T p).next w now) = now := by
  refine BitVec.eq_of_getLsbD_eq fun i hi => ?_
  rw [getLsbD_field hp _ hi, getLsbD_next hp, if_pos (by omega), Nat.add_sub_cancel_left]

theorem field_next_apart {T' : Size} {p' : Nat} (hp : T.bytes ∣ p) (hp' : T'.bytes ∣ p') (hw : p - p % 4 = p' - p' % 4)
    (hd : p + T.bytes ≤ p' ∨ p' + T'.bytes ≤ p) (w : BitVec 32) (now : BitVec T.bits) :
    (laneOf big T' p').field T' ((laneOf big T p).next w now) = (laneOf big T' p').field T' w := by
  have h1 := off_le hp
  have h2 := off_le hp'
  refine BitVec.eq_of_getLsbD_eq fun i hi => ?_
  rw [getLsbD_field hp' _ hi, getLsbD_field hp' _ hi, getLsbD_next hp, if_neg]
  unfold Size.bits at hi ⊢
  unfold laneOf
  dsimp only
  split
  · omega
  · omega

theorem byteOf_next (hp : T.bytes ∣ p) {b : Nat} (hw : p - p % 4 = b - b % 4) (hd : b < p ∨ p + T.bytes ≤ b) (w : BitVec 32)
    (now : BitVec T.bits) : byteOf big ((laneOf big T p).next w now) (b % 4) = byteOf big w (b % 4) := by
  have h1 := off_le hp
  refine BitVec.eq_of_getLsbD_eq fun i hi => ?_
  unfold byteOf
  rw [BitVec.getLsbD_setWidth, BitVec.getLsbD_setWidth, BitVec.getLsbD_ushiftRight, BitVec.getLsbD_ushiftRight,
    getLsbD_next hp, if_neg]
  unfold Size.bits laneOf
  dsimp only
  split
  · omega
  · omega

end Bits

/-! ### The calls

The read-modify-writes of `user/src/user_atomic.cc` by any number of threads on any number of objects, each load and
each `kickos_user_cas` a step of its own. -/

open Lib

/-- `Add`, `Sub`, `And`, `Or`, `Xor`, `Nand` and `Set`. -/
inductive Rmw where
  | add | sub | and | or | xor | nand | set
  deriving DecidableEq

def Rmw.apply {n : Nat} (op : Rmw) (v old : BitVec n) : BitVec n :=
  match op with
  | .add => old + v
  | .sub => old - v
  | .and => old &&& v
  | .or => old ||| v
  | .xor => old ^^^ v
  | .nand => ~~~(old &&& v)
  | .set => v

inductive Call (T : Size) where
  /-- `fetch`, which answers the old value, or `then`, which answers the new one. -/
  | modify (op : Rmw) (v : BitVec T.bits) (answersNow : Bool)
  | compareExchange (expected desired : BitVec T.bits)

inductive Answer (T : Size) where
  | value (v : BitVec T.bits)
  | swapped
  /-- False, with the value held left in `*expected`. -/
  | refused (held : BitVec T.bits)

namespace Call

variable {T : Size} (c : Call T) (held : BitVec T.bits)

/-- A compare-exchange goes on only with the value it expects. -/
def Goes : Prop :=
  match c with
  | .modify _ _ _ => True
  | .compareExchange expected _ => held = expected

instance : Decidable (c.Goes held) :=
  match c with
  | .modify _ _ _ => isTrue trivial
  | .compareExchange expected _ => inferInstanceAs (Decidable (held = expected))

def now : BitVec T.bits :=
  match c with
  | .modify op v _ => op.apply v held
  | .compareExchange _ desired => desired

/-- What the call answers once its word is stored. -/
def answer : Answer T :=
  match c with
  | .modify op v answersNow => .value (if answersNow then op.apply v held else held)
  | .compareExchange _ _ => .swapped

/-- The call on a value of its own, in one piece. -/
def seq : BitVec T.bits × Answer T :=
  match c with
  | .modify op v answersNow => (op.apply v held, .value (if answersNow then op.apply v held else held))
  | .compareExchange expected desired => if held = expected then (desired, .swapped) else (held, .refused held)

end Call

/-- Naturally aligned objects that lie apart. -/
structure Layout (Obj : Type) where
  size : Obj → Size
  addr : Obj → Nat
  aligned : ∀ o, (size o).bytes ∣ addr o
  apart : ∀ o o', o ≠ o' → addr o + (size o).bytes ≤ addr o' ∨ addr o' + (size o').bytes ≤ addr o

variable {Obj Tid : Type}

/-- A call on an object, and an answer for one. -/
abbrev Op (L : Layout Obj) : Type := (o : Obj) × Call (L.size o)

abbrev Res (L : Layout Obj) : Type := (o : Obj) × Answer (L.size o)

abbrev Values (L : Layout Obj) : Type := (o : Obj) → BitVec (L.size o).bits

def Layout.seq [DecidableEq Obj] (L : Layout Obj) (op : Op L) (s : Values L) : Values L × Res L :=
  (Function.update s op.1 (op.2.seq (s op.1)).1, ⟨op.1, (op.2.seq (s op.1)).2⟩)

def lane (big : Bool) (L : Layout Obj) (o : Obj) : Lane := laneOf big (L.size o) (L.addr o)

/-- The values of the objects in a memory. -/
def valuesOf (big : Bool) (L : Layout Obj) (mem : Nat → BitVec 32) : Values L :=
  fun o => (lane big L o).field _ (mem (lane big L o).word)

/-- Where a thread is, with the identity of its call. -/
inductive Pc (L : Layout Obj) where
  | idle
  /-- In front of the load. -/
  | start (i : Nat) (op : Op L)
  /-- In front of the compare-and-swap, with the word it saw. -/
  | loop (i : Nat) (op : Op L) (w : BitVec 32)
  | done (i : Nat) (r : Res L)

/-- The words, the threads and, for the statements only, the history and the calls in the order they took effect. -/
structure Sys (L : Layout Obj) (Tid : Type) where
  mem : Nat → BitVec 32
  pc : Tid → Pc L := fun _ => .idle
  serial : Nat := 0
  hist : List (Event Nat (Op L) (Res L)) := []
  lin : List (Nat × Op L × Res L) := []

inductive Act (L : Layout Obj) (Tid : Type) where
  | call (t : Tid) (op : Op L)
  | load (t : Tid)
  | swap (t : Tid)
  | ret (t : Tid)

namespace Sys

variable {L : Layout Obj} [DecidableEq Tid] (big : Bool) (x : Sys L Tid) (t : Tid)

def goto (p : Pc L) : Sys L Tid := { x with pc := Function.update x.pc t p }

def finish (i : Nat) (op : Op L) (a : Answer (L.size op.1)) : Sys L Tid :=
  { x.goto t (.done i ⟨op.1, a⟩) with lin := x.lin ++ [(i, op, ⟨op.1, a⟩)] }

/-- The head of the loop, with the word just seen. -/
def look (i : Nat) (op : Op L) (w : BitVec 32) : Sys L Tid :=
  if op.2.Goes ((lane big L op.1).field _ w) then x.goto t (.loop i op w)
  else x.finish t i op (.refused ((lane big L op.1).field _ w))

def swap (i : Nat) (op : Op L) (w : BitVec 32) : Sys L Tid :=
  let held := (lane big L op.1).field _ w
  if x.mem (lane big L op.1).word = w then
    { x.finish t i op (op.2.answer held) with
      mem := Function.update x.mem (lane big L op.1).word ((lane big L op.1).next w (op.2.now held)) }
  else x.look big t i op (x.mem (lane big L op.1).word)

def step : Act L Tid → Option (Sys L Tid)
  | .call t op =>
    match x.pc t with
    | .idle => some { x.goto t (.start x.serial op) with serial := x.serial + 1, hist := x.hist ++ [.call x.serial op] }
    | _ => none
  | .load t =>
    match x.pc t with
    | .start i op => some (x.look big t i op (x.mem (lane big L op.1).word))
    | _ => none
  | .swap t =>
    match x.pc t with
    | .loop i op w => some (x.swap big t i op w)
    | _ => none
  | .ret t =>
    match x.pc t with
    | .done i r => some { x.goto t .idle with hist := x.hist ++ [.ret i r] }
    | _ => none

def values : Values L := valuesOf big L x.mem

def byte (b : Nat) : BitVec 8 := byteOf big (x.mem (b - b % 4)) (b % 4)

end Sys

/-- A run from any memory on. -/
inductive Reachable [DecidableEq Tid] (big : Bool) (L : Layout Obj) (mem : Nat → BitVec 32) : Sys L Tid → Prop where
  | init : Reachable big L mem { mem := mem }
  | step {x y : Sys L Tid} (a : Act L Tid) (hx : Reachable big L mem x) (hs : x.step big a = some y) : Reachable big L mem y

end KickOS.Atomic
