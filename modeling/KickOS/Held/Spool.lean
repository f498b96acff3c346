import KickOS.Held.Moves

/-! What the store is for, and how it stands in the buffer.

A spool is a queue of committed byte strings and the open records of the writers. The store represents one: behind the
part already taken of the first record stand the committed records, and behind them the entries of the open ones. -/

namespace KickOS
namespace Held

open Lib.Buffer

/-! ### The spool -/

structure OpenRecord where
  lines : List (List Byte)
  /-- A line of it has been dropped, so every later one is. -/
  dropped : Bool
  deriving DecidableEq, Repr

structure Spool where
  committed : List (List Byte)
  opened : Key → Option OpenRecord

/-- What the spool cannot tell of the buffer: that a record can be opened, and that the line fits behind it. -/
structure Room where
  opens : Bool
  fits : Bool
  deriving DecidableEq, Repr

/-- The record with one line more; from the first line that is too long, over the cap or without room on it only drops. -/
def OpenRecord.grow (o : OpenRecord) (line : List Byte) (max : Nat) (fits : Bool) : OpenRecord :=
  if o.dropped ∨ line = [] then o
  else if 255 < line.length ∨ max < o.lines.flatten.length + line.length ∨ fits = false then { o with dropped := true }
  else { o with lines := o.lines ++ [line] }

namespace Spool

variable (a : Spool)

def empty : Spool := ⟨[], fun _ => none⟩

/-- The key's record replaced, the others as they are. -/
def set (key : Key) (o : Option OpenRecord) : Spool := { a with opened := Function.update a.opened key o }

def append (key : Key) (line : List Byte) (max : Nat) (room : Room) : Spool × Nat :=
  match a.opened key with
  | some o => (a.set key (some (o.grow line max room.fits)), 1)
  | none => if room.opens then (a.set key (some ((⟨[], false⟩ : OpenRecord).grow line max room.fits)), 1) else (a, 0)

/-- The record's lines go to the end of the queue, unbroken; a record without a byte only leaves. -/
def commit (key : Key) : Spool × Nat :=
  match a.opened key with
  | none => (a, 0)
  | some o => ({ a.set key none with committed := a.committed ++ if o.lines.flatten = [] then [] else [o.lines.flatten] }, 1)

def abandon (key : Key) : Spool := a.set key none

def shown : List Byte := a.committed.headD []

def take (n : Nat) : Spool :=
  { a with
    committed :=
      match a.committed with
      | [] => []
      | c :: cs => if n < c.length then c.drop n :: cs else cs }

def step : Op × Room → Spool × Nat
  | (.append key line max, room) => a.append key line max room
  | (.commit key, _) => a.commit key
  | (.abandon key, _) => (a.abandon key, 0)
  | (.take n, _) => (a.take n, 0)

def run : Spool → List (Op × Room) → Spool
  | a, [] => a
  | a, op :: ops => run (a.step op).1 ops

def answers : Spool → List (Op × Room) → List Answer
  | _, [] => []
  | a, op :: ops =>
    let c := (a.step op).1
    ⟨(a.step op).2, c.shown.length, c.shown⟩ :: answers c ops

end Spool

def Store.room (r : Store) : Op → Room
  | .append key line _ =>
    let head := if r.heldMarkKey key = r.heldHead then r.heldHead + mark else r.heldHead
    { opens := !r.armed && r.present && decide (r.freeId idCount 0 ≠ idCount) && decide (mark ≤ r.size - r.heldHead)
      fits := decide (lineHeader + line.length ≤ r.size - head) }
  | _ => ⟨false, false⟩

/-- The calls of a sequence, each with the room the store has for it. -/
def Store.rooms : Store → List Op → List (Op × Room)
  | _, [] => []
  | r, op :: ops => (op, r.room op) :: rooms (r.step op).1 ops

/-! ### Markers -/

def ids (es : List Entry) : Set Byte := {id | ∃ dropped key, Entry.mark id dropped key ∈ es}

/-- Every line comes behind its marker, and no id has two. -/
def Marked : Set Byte → List Entry → Prop
  | _, [] => True
  | seen, .mark id _ _ :: es => id ∉ seen ∧ Marked (insert id seen) es
  | seen, .line id _ :: es => id ∈ seen ∧ Marked seen es

section marked

variable {seen : Set Byte} {es fs : List Entry} {id i : Byte} {dropped dropped' : Bool} {key key' : Key} {bytes : List Byte}

theorem ids_cons_mark : ids (.mark id dropped key :: es) = insert id (ids es) := by
  ext j
  constructor
  · rintro ⟨d, k, hmem⟩
    rcases List.mem_cons.mp hmem with heq | hmem
    · cases heq
      exact Or.inl rfl
    · exact Or.inr ⟨d, k, hmem⟩
  · rintro (rfl | ⟨d, k, hmem⟩)
    · exact ⟨dropped, key, List.mem_cons_self ..⟩
    · exact ⟨d, k, List.mem_cons_of_mem _ hmem⟩

theorem ids_cons_line : ids (.line id bytes :: es) = ids es := by
  ext j
  constructor
  · rintro ⟨d, k, hmem⟩
    rcases List.mem_cons.mp hmem with heq | hmem
    · cases heq
    · exact ⟨d, k, hmem⟩
  · rintro ⟨d, k, hmem⟩
    exact ⟨d, k, List.mem_cons_of_mem _ hmem⟩

theorem marked_append : Marked seen (es ++ fs) ↔ Marked seen es ∧ Marked (seen ∪ ids es) fs := by
  induction es generalizing seen with
  | nil =>
    have : ids [] = ∅ := by
      ext j
      simp [ids]
    simp [Marked, this]
  | cons e es ih =>
    cases e with
    | mark id dropped key =>
      have hset : insert id seen ∪ ids es = seen ∪ insert id (ids es) := by rw [Set.insert_union, Set.union_insert]
      simp only [List.cons_append, Marked, ih, ids_cons_mark, hset, and_assoc]
    | line id bytes => simp only [List.cons_append, Marked, ih, ids_cons_line, and_assoc]

theorem Marked.line_mem (h : Marked seen es) (hmem : Entry.line id bytes ∈ es) : id ∈ seen ∪ ids es := by
  obtain ⟨pre, post, rfl⟩ := List.append_of_mem hmem
  obtain ⟨-, hin, -⟩ := marked_append.mp h
  rcases hin with hseen | ⟨d, k, hm⟩
  · exact Or.inl hseen
  · exact Or.inr ⟨d, k, List.mem_append_left _ hm⟩

theorem Marked.mark_notin (h : Marked seen es) (hmem : Entry.mark id dropped key ∈ es) : id ∉ seen := by
  obtain ⟨pre, post, rfl⟩ := List.append_of_mem hmem
  obtain ⟨-, hnot, -⟩ := marked_append.mp h
  exact fun hs => hnot (Or.inl hs)

theorem Marked.mark_unique (h : Marked seen es) (hmem : Entry.mark id dropped key ∈ es)
    (hmem' : Entry.mark id dropped' key' ∈ es) : dropped = dropped' ∧ key = key' := by
  obtain ⟨pre, post, rfl⟩ := List.append_of_mem hmem
  obtain ⟨hpre, hnot, hpost⟩ := marked_append.mp h
  rcases List.mem_append.mp hmem' with hin | hin
  · exact absurd (Or.inr ⟨dropped', key', hin⟩) hnot
  · rcases List.mem_cons.mp hin with heq | hin
    · cases heq
      exact ⟨rfl, rfl⟩
    · exact absurd (Set.mem_insert _ _) (hpost.mark_notin hin)

theorem Marked.others (h : Marked seen es) : Marked (seen \ {i}) (others i es) := by
  induction es generalizing seen with
  | nil => trivial
  | cons e es ih =>
    cases e with
    | mark id dropped key =>
      obtain ⟨hnot, h⟩ := h
      by_cases heq : id = i
      · subst heq
        rw [others_cons_of_eq (show (Entry.mark id dropped key).id = id from rfl)]
        simpa using ih h
      · rw [others_cons_of_ne (show (Entry.mark id dropped key).id ≠ i from heq)]
        refine ⟨fun hs => hnot hs.1, ?_⟩
        rw [Set.insert_sdiff_singleton_comm heq]
        exact ih h
    | line id bytes =>
      obtain ⟨hin, h⟩ := h
      by_cases heq : id = i
      · subst heq
        rw [others_cons_of_eq (show (Entry.line id bytes).id = id from rfl)]
        exact ih h
      · rw [others_cons_of_ne (show (Entry.line id bytes).id ≠ i from heq)]
        exact ⟨⟨hin, heq⟩, ih h⟩

theorem Marked.mine_lines (h : Marked seen es) (hi : i ∈ seen) : ∀ e ∈ mine i es, e.isMark = false := by
  intro e he
  obtain ⟨hmem, hid⟩ := List.mem_filter.mp he
  cases e with
  | mark id dropped key =>
    obtain rfl : id = i := of_decide_eq_true hid
    exact absurd hi (h.mark_notin hmem)
  | line id bytes => rfl

theorem Marked.mine_eq (h : Marked seen es) (hmem : Entry.mark i dropped key ∈ es) :
    ∃ ls, mine i es = .mark i dropped key :: ls ∧ ∀ e ∈ ls, e.isMark = false := by
  induction es generalizing seen with
  | nil => cases hmem
  | cons e es ih =>
    cases e with
    | mark id d k =>
      obtain ⟨hnot, h⟩ := h
      by_cases heq : id = i
      · subst heq
        refine ⟨mine id es, ?_, h.mine_lines (Set.mem_insert _ _)⟩
        rcases List.mem_cons.mp hmem with heq | hmem
        · rw [← heq, mine_cons_of_eq (show (Entry.mark id dropped key).id = id from rfl)]
        · exact absurd (Set.mem_insert _ _) (h.mark_notin hmem)
      · rw [mine_cons_of_ne (show (Entry.mark id d k).id ≠ i from heq)]
        refine ih h ((List.mem_cons.mp hmem).resolve_left fun h' => heq ?_)
        cases h'
        rfl
    | line id bytes =>
      have hmem : Entry.mark i dropped key ∈ es := (List.mem_cons.mp hmem).resolve_left (by intro h'; cases h')
      obtain ⟨hin, h⟩ := h
      have hne : (Entry.line id bytes).id ≠ i := by
        rintro rfl
        exact h.mark_notin hmem hin
      rw [mine_cons_of_ne hne]
      exact ih h hmem

end marked

/-! ### The store as a spool -/

def record (c : List Byte) : List Byte := BitVec.ofNat 8 c.length :: BitVec.ofNat 8 (c.length >>> 8) :: c

/-- The lines with this id, in their order. -/
def linesOf (id : Byte) (es : List Entry) : List (List Byte) := ((mine id es).filter fun e => !e.isMark).map Entry.bytes

/-- The committed records and the entries stand in the buffer one behind the other. -/
structure Area (r : Store) (cs : List (List Byte)) (es : List Entry) : Prop where
  records : Stands r.buf r.heldTail (cs.flatMap record)
  opened : r.heldOpen = r.heldTail + (cs.flatMap record).length
  entries : Stands r.buf r.heldOpen (encodeAll es)
  head : r.heldHead = r.heldOpen + (encodeAll es).length
  room : r.heldHead ≤ r.size
  lens : ∀ c ∈ cs, c ≠ [] ∧ c.length < 65536
  ok : ∀ e ∈ es, e.Ok
  marked : Marked ∅ es
  keyed : ∀ {id id' dropped dropped' key}, Entry.mark id dropped key ∈ es → Entry.mark id' dropped' key ∈ es → id = id'
  caps : ∀ id, recordBytes id es < 65536
  quiet : r.armed = true ∨ r.present = false → es = []

/-- What is left of the committed records behind the bytes already taken. -/
def behind (taken : Nat) : List (List Byte) → List (List Byte)
  | [] => []
  | c :: cs => c.drop taken :: cs

/-- The store stands for the spool. -/
structure Represents (r : Store) (a : Spool) (cs : List (List Byte)) (es : List Entry) : Prop where
  area : Area r cs es
  taken : (cs = [] ∧ r.heldTaken = 0) ∨ ∃ c cs', cs = c :: cs' ∧ r.heldTaken < c.length
  committed : a.committed = behind r.heldTaken cs
  opened : ∀ key o, a.opened key = some o ↔ ∃ id dropped, Entry.mark id dropped key ∈ es ∧ o = ⟨linesOf id es, dropped⟩

end Held
end KickOS
