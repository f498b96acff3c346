import KickOS.Lib.Count
import KickOS.Lib.Radix

/-! The page-table walk the translating backends share, `arch/common/aspace_walk`, over the frames `kernel/mem/frame` hands out.

A page is its number, an address without its granule bits; an entry is 0 or valid, as every store of the walk leaves it; and a
table is the tree below it, as each of them is linked once. `b` is `INDEX_BITS`, and the root stands at height `top + 1`. -/

namespace KickOS
namespace Walk

open Lib.Radix
open Function (update)

/-- `FrameAllocator`, by frame numbers. -/
structure Pool where
  frames : Nat
  /-- The bitmap's own frames, the first ones. -/
  reserved : Nat
  hint : Nat
  bits : Nat → Bool

namespace Pool

/-- The bitmap's own frames are marked, and what lies past the pool reads as marked. -/
def taken (p : Pool) (i : Nat) : Bool := decide (i < p.reserved) || decide (p.frames ≤ i) || p.bits i

/-- `frames_free`. -/
def free (p : Pool) : Nat := Lib.count p.frames fun i => !p.taken i

/-- `alloc`: from the hint to the end, then from the start to the hint. -/
def alloc (p : Pool) : Option (Nat × Pool) :=
  ((List.range' p.hint (p.frames - p.hint) ++ List.range' p.reserved (p.hint - p.reserved)).find? fun i => !p.taken i).map
    fun i => (i, { p with bits := update p.bits i true, hint := i + 1 })

/-- `release`, whose answer `kickos_frame_free` drops. -/
def release (p : Pool) (i : Nat) : Pool :=
  if i < p.reserved ∨ p.frames ≤ i ∨ p.bits i = false then p
  else { p with bits := update p.bits i false, hint := min i p.hint }

end Pool

/-- What `leaf_desc` packs. -/
structure Leaf where
  attrs : BitVec 64
  pa : Nat
  deriving DecidableEq

structure Edit where
  /-- The tables linked less the tables given back, modulo 2^32. -/
  tables : BitVec 32 := 0
  /-- The frames of the tables taken out of the tree and not yet given back. -/
  detached : List Nat := []

inductive Result
  | ok
  | einval
  | enomem
  deriving DecidableEq

variable {b : Nat}

/-- Whether the entry of height `k` on the way to a page is valid: `table_holding`, and the entry it leads to. -/
def entryValid : (h : Nat) → Table b Leaf h → Nat → Nat → Bool
  | 0, t, p, _ => (t (index b 0 p)).isSome
  | h + 1, t, p, k =>
    if k = h + 1 then !(t (index b (h + 1) p)).isEmpty
    else
      match t (index b (h + 1) p) with
      | .table _ c => entryValid h c p k
      | _ => false

/-- The chunks of one height of `tables_needed`. -/
def neededAt {h : Nat} (t : Table b Leaf h) (va last k : Nat) : Nat :=
  (List.range' (va / span b k) (last / span b k - va / span b k + 1)).countP fun c => !entryValid h t (c * span b k) k

/-- The heights of `tables_needed`, from one down to 1. -/
def neededFrom {h : Nat} (t : Table b Leaf h) (va last : Nat) : Nat → Nat
  | 0 => 0
  | k + 1 => neededAt t va last (k + 1) + neededFrom t va last k

/-- `tables_needed`. -/
def tablesNeeded {h : Nat} (t : Table b Leaf h) (va pages : Nat) : Nat :=
  if pages = 0 then 0 else neededFrom t va (va + (pages - 1)) h

/-- `pages_under`. -/
def pagesUnder (b va h pages : Nat) : Nat := min ((va + span b h) / span b h * span b h - va) pages

/-- What a call of `map_into` leaves. -/
structure Mapped (T : Type) where
  table : T
  pool : Pool
  edit : Edit
  ok : Bool

/-- `map_into` at height 0. -/
def leafLoop (attrs : BitVec 64) : Nat → Table b Leaf 0 → Nat → Nat → Table b Leaf 0
  | 0, t, _, _ => t
  | n + 1, t, va, pa => leafLoop attrs n (update t (index b 0 va) (some ⟨attrs, pa⟩)) (va + 1) (pa + 1)

/-- The loop of `map_into` above height 0, which enters the tables below with `into`. Each pass maps a page or more, so the first
argument is as many as the pages. -/
def mapLoop {h : Nat} (into : Table b Leaf h → Nat → Nat → Nat → Pool → Edit → Mapped (Table b Leaf h)) :
    Nat → Table b Leaf (h + 1) → Nat → Nat → Nat → Pool → Edit → Mapped (Table b Leaf (h + 1))
  | 0, t, _, _, _, pool, e => ⟨t, pool, e, true⟩
  | n + 1, t, va, pages, pa, pool, e =>
    if pages = 0 then ⟨t, pool, e, true⟩
    else
      let idx := index b (h + 1) va
      let here := pagesUnder b va (h + 1) pages
      let below (f : Nat) (c : Table b Leaf h) (pool : Pool) (e : Edit) : Mapped (Table b Leaf (h + 1)) :=
        let r := into c va here pa pool e
        if r.ok then mapLoop into n (update t idx (.table f r.table)) (va + here) (pages - here) (pa + here) r.pool r.edit
        else ⟨update t idx (.table f r.table), r.pool, r.edit, false⟩
      match t idx with
      | .empty =>
        match pool.alloc with
        | none => ⟨t, pool, e, false⟩
        | some (f, pool) => below f (zero h) pool { e with tables := e.tables + 1 }
      | .table f c => below f c pool e
      -- walk_map refused the range before
      | .block _ => ⟨t, pool, e, false⟩

/-- `map_into`. -/
def mapInto (attrs : BitVec 64) : (h : Nat) → Table b Leaf h → Nat → Nat → Nat → Pool → Edit → Mapped (Table b Leaf h)
  | 0, t, va, pages, pa, pool, e => ⟨leafLoop attrs pages t va pa, pool, e, true⟩
  | h + 1, t, va, pages, pa, pool, e => mapLoop (mapInto attrs h) pages t va pages pa pool e

/-- `table_empty`. -/
def tableEmpty : (h : Nat) → Table b Leaf h → Bool
  | 0, t => (List.finRange (2 ^ b)).all fun i => (t i).isNone
  | _ + 1, t => (List.finRange (2 ^ b)).all fun i => (t i).isEmpty

/-- The loop of `detach_empty`, which empties a table below with `child`. Each pass moves on by a page or more. -/
def detachLoop {h : Nat} (child : Table b Leaf h → Nat → Nat → List Nat → Table b Leaf h × List Nat × Bool)
    (kept : Fin (2 ^ b) → Bool) : Nat → Table b Leaf (h + 1) → Nat → Nat → List Nat → Table b Leaf (h + 1) × List Nat
  | 0, t, _, _, d => (t, d)
  | n + 1, t, at_, stop, d =>
    if stop ≤ at_ then (t, d)
    else
      let idx := index b (h + 1) at_
      let next := min (at_ / span b (h + 1) * span b (h + 1) + span b (h + 1)) stop
      match t idx with
      | .table f c =>
        if kept idx then detachLoop child kept n t next stop d
        else
          let r := child c at_ next d
          if r.2.2 then detachLoop child kept n (update t idx .empty) next stop (f :: r.2.1)
          else detachLoop child kept n (update t idx (.table f r.1)) next stop r.2.1
      | _ => detachLoop child kept n t next stop d

/-- `detach_empty`, of a table at height `h + 1`. `kept` are the root's kept slots, and none below it. -/
def detachEmpty : (h : Nat) → (Fin (2 ^ b) → Bool) → Table b Leaf (h + 1) → Nat → Nat → List Nat →
    Table b Leaf (h + 1) × List Nat × Bool
  | 0, kept, t, at_, stop, d =>
    let r := detachLoop (fun c _ _ d => (c, d, tableEmpty 0 c)) kept (stop - at_) t at_ stop d
    (r.1, r.2, tableEmpty 1 r.1)
  | h + 1, kept, t, at_, stop, d =>
    let r := detachLoop (detachEmpty h fun _ => false) kept (stop - at_) t at_ stop d
    (r.1, r.2, tableEmpty (h + 2) r.1)

/-- A leaf cleared through `leaf_entry`. -/
def clearLeaf : (h : Nat) → Table b Leaf h → Nat → Table b Leaf h
  | 0, t, p => update t (index b 0 p) none
  | h + 1, t, p =>
    match t (index b (h + 1) p) with
    | .table f c => update t (index b (h + 1) p) (.table f (clearLeaf h c p))
    | _ => t

/-- The first loop of `remove_run`: up to the first page without a leaf. -/
def clearRun {h : Nat} : Nat → Table b Leaf h → Nat → Table b Leaf h
  | 0, t, _ => t
  | n + 1, t, va =>
    match walk h t va with
    | .leaf _ => clearRun n (clearLeaf h t va) (va + 1)
    | _ => t

/-- What a walk leaves. -/
structure Walked (b top : Nat) where
  root : Table b Leaf (top + 1)
  pool : Pool
  edit : Edit
  rc : Result

variable {top : Nat}

/-- `remove_run`. -/
def removeRun (kept : Fin (2 ^ b) → Bool) (root : Table b Leaf (top + 1)) (va pages : Nat) (pool : Pool) (e : Edit)
    (rc : Result) : Walked b top :=
  let r := detachEmpty top kept (clearRun pages root va) va (va + pages) e.detached
  { root := r.1
    pool := r.2.1.foldl Pool.release pool
    edit := ⟨r.2.1.foldl (fun n _ => n - 1) e.tables, []⟩
    rc := rc }

/-- The first loop of `walk_map`: the pages with a leaf, unless a larger leaf covers one. -/
def scan (root : Table b Leaf (top + 1)) : Nat → Nat → Nat → Option Nat
  | 0, _, mapped => some mapped
  | n + 1, va, mapped =>
    match walk (top + 1) root va with
    | .leaf _ => scan root n (va + 1) (mapped + 1)
    | .block _ => none
    | .none => scan root n (va + 1) mapped

/-- `walk_map`. -/
def walkMap (kept : Fin (2 ^ b) → Bool) (root : Table b Leaf (top + 1)) (va pa pages : Nat) (attrs : BitVec 64) (pool : Pool) :
    Walked b top :=
  match scan root pages va 0 with
  | none => ⟨root, pool, {}, .einval⟩
  | some mapped =>
    if mapped ≠ 0 ∧ mapped ≠ pages then ⟨root, pool, {}, .einval⟩
    else
      let r := mapInto attrs (top + 1) root va pages pa pool {}
      if r.ok then ⟨r.table, r.pool, r.edit, .ok⟩ else removeRun kept r.table va pages r.pool r.edit .enomem

/-- The check of `walk_unmap`. -/
def allLeaves (root : Table b Leaf (top + 1)) (va pages : Nat) : Bool :=
  (List.range pages).all fun i =>
    match walk (top + 1) root (va + i) with
    | .leaf _ => true
    | _ => false

/-- `walk_unmap`. -/
def walkUnmap (kept : Fin (2 ^ b) → Bool) (root : Table b Leaf (top + 1)) (va pages : Nat) (pool : Pool) : Walked b top :=
  if allLeaves root va pages then removeRun kept root va pages pool {} .ok else ⟨root, pool, {}, .einval⟩

/-- A space: its root, and its count in the residency table. -/
structure Space (b top : Nat) where
  root : Table b Leaf (top + 1)
  tables : BitVec 32

/-- `tables_moved`. -/
def Space.moved (s : Space b top) (w : Walked b top) : Space b top := ⟨w.root, s.tables + w.edit.tables⟩

end Walk
end KickOS
