import KickOS.Lib.Extent

/-! The virtual ranges one address space names: a table of entries, reserved and then granted. -/

namespace KickOS.Range

variable {w n : Nat}

def isPow2 (v : BitVec w) : Bool := v != 0 && v &&& (v - 1) == 0

/-- `extent_end`: none where the byte count or the end wraps, and for an empty extent. -/
def extentEnd (base pages granule : BitVec w) : Option (BitVec w) :=
  if pages = 0 ∨ granule = 0 then none
  else if pages * granule / granule ≠ pages then none
  else if base + pages * granule < base then none
  else some (base + pages * granule)

inductive VirtualState
  | free
  | reserved
  | granted
  deriving DecidableEq

/-- `run` is also a window's place, `holder` also a reservation's lends. -/
structure VirtualRange (w : Nat) where
  base : BitVec w := 0
  pages : BitVec 32 := 0
  run : BitVec 32 := 0
  rights : BitVec 8 := 0
  memtype : BitVec 8 := 0
  flags : BitVec 8 := 0
  state : VirtualState := .free
  holder : BitVec 16 := 0
  donor : BitVec 16 := 0

def vrMaxPages : Nat := 0xffffffff

def vrSyncOwed : BitVec 8 := 1 <<< 6

/-- `vr_grants`. -/
def VirtualRange.grants (e : VirtualRange w) (rights : BitVec 32) : Bool :=
  e.state == .granted && e.rights.setWidth 32 &&& rights == rights

structure VirtualRanges (w n : Nat) where
  granule : BitVec w := 0
  ranges : Fin n → VirtualRange w := fun _ => {}

namespace VirtualRanges

def init (granule : BitVec w) : VirtualRanges w n := { granule := if isPow2 granule then granule else 0 }

def Live (v : VirtualRanges w n) (i : Fin n) : Prop := (v.ranges i).state ≠ .free

instance (v : VirtualRanges w n) (i : Fin n) : Decidable (v.Live i) := inferInstanceAs (Decidable (_ ≠ _))

def endOf (v : VirtualRanges w n) (r : VirtualRange w) : BitVec w := r.base + r.pages.setWidth w * v.granule

/-- A live entry with an address of `[base, stop)`. -/
def meets (v : VirtualRanges w n) (base stop : BitVec w) (i : Fin n) : Bool :=
  decide (v.Live i) && decide (base < v.endOf (v.ranges i)) && decide ((v.ranges i).base < stop)

def overlaps (v : VirtualRanges w n) (base pages : BitVec w) : Bool :=
  if v.granule = 0 ∨ pages = 0 then false
  else
    match extentEnd base pages v.granule with
    | none => true
    | some stop => (List.finRange n).any (v.meets base stop)

def setRange (v : VirtualRanges w n) (i : Fin n) (r : VirtualRange w) : VirtualRanges w n :=
  { v with ranges := Function.update v.ranges i r }

def reserve (v : VirtualRanges w n) (base pages : BitVec w) (flags : BitVec 8) (run : BitVec 32) (holder donor : BitVec 16) :
    VirtualRanges w n × Bool :=
  if v.granule = 0 ∨ pages = 0 ∨ base &&& (v.granule - 1) ≠ 0 then (v, false)
  else if vrMaxPages < pages.toNat then (v, false)
  else if v.overlaps base pages then (v, false)
  else
    match (List.finRange n).find? fun i => decide (¬ v.Live i) with
    | none => (v, false)
    | some i =>
      (v.setRange i
        { base := base, pages := pages.setWidth 32, run := run, flags := flags, state := .reserved, holder := holder,
          donor := donor }, true)

def hit (v : VirtualRanges w n) (base stop : BitVec w) : Option (Fin n) := (List.finRange n).find? (v.meets base stop)

theorem lt_endOf_of_hit {v : VirtualRanges w n} {base stop : BitVec w} {i : Fin n} (h : v.hit base stop = some i) :
    base < v.endOf (v.ranges i) := by
  have hm := List.find?_some h
  unfold meets at hm
  rw [Bool.and_eq_true, Bool.and_eq_true, decide_eq_true_iff, decide_eq_true_iff] at hm
  exact hm.1.2

/-- The walk of `place`, which goes on behind the entry it meets. -/
def placeFrom (v : VirtualRanges w n) (areaEnd pages base : BitVec w) : BitVec w :=
  match extentEnd base pages v.granule with
  | none => 0
  | some stop =>
    if stop ≤ areaEnd then
      match _ : v.hit base stop with
      | none => base
      | some i => v.placeFrom areaEnd pages (v.endOf (v.ranges i))
    else 0
termination_by 2 ^ w - base.toNat
decreasing_by
  have h := BitVec.lt_def.1 (lt_endOf_of_hit ‹_›)
  omega

def place (v : VirtualRanges w n) (area areaPages pages : BitVec w) : BitVec w :=
  if v.granule = 0 ∨ pages = 0 ∨ areaPages < pages ∨ area &&& (v.granule - 1) ≠ 0 then 0
  else
    match extentEnd area areaPages v.granule with
    | none => 0
    | some areaEnd => v.placeFrom areaEnd pages area

def indexAt (v : VirtualRanges w n) (base : BitVec w) : Option (Fin n) :=
  (List.finRange n).find? fun i => decide (v.Live i ∧ (v.ranges i).base = base)

def grant (v : VirtualRanges w n) (base pages : BitVec w) (rights : BitVec 32) (memtype : BitVec 8) : VirtualRanges w n × Bool :=
  if v.granule = 0 ∨ rights = 0 then (v, false)
  else if rights ≠ (rights.setWidth 8).setWidth 32 then (v, false)
  else
    match v.indexAt base with
    | none => (v, false)
    | some i =>
      if (v.ranges i).pages.setWidth w ≠ pages then (v, false)
      else (v.setRange i { v.ranges i with rights := rights.setWidth 8, memtype := memtype, state := .granted }, true)

def lend (v : VirtualRanges w n) (base : BitVec w) (more : Bool) : VirtualRanges w n × BitVec 16 :=
  match v.indexAt base with
  | none => (v, 0)
  | some i =>
    let lends := (v.ranges i).holder
    let lends' :=
      if more = true ∧ lends ≠ 0xffff then lends + 1
      else if more = false ∧ lends ≠ 0 then lends - 1
      else lends
    (v.setRange i { v.ranges i with holder := lends' }, lends')

def setSyncOwed (v : VirtualRanges w n) (base : BitVec w) (owed : Bool) : VirtualRanges w n × Bool :=
  match v.indexAt base with
  | none => (v, false)
  | some i =>
    let f := (v.ranges i).flags &&& ~~~vrSyncOwed
    (v.setRange i { v.ranges i with flags := if owed then f ||| vrSyncOwed else f }, true)

def releaseAt (v : VirtualRanges w n) (i : Fin n) : VirtualRanges w n × Bool :=
  if v.Live i then (v.setRange i {}, true) else (v, false)

def release (v : VirtualRanges w n) (base : BitVec w) : VirtualRanges w n × Bool :=
  match v.indexAt base with
  | none => (v, false)
  | some i => v.releaseAt i

def find (v : VirtualRanges w n) (addr len : BitVec w) : Option (Fin n) :=
  if v.granule = 0 ∨ len = 0 then none
  else if addr + len < addr then none
  else (List.finRange n).find? fun i => decide (v.Live i ∧ (v.ranges i).base ≤ addr ∧ addr + len ≤ v.endOf (v.ranges i))

def covers (v : VirtualRanges w n) (addr len : BitVec w) (rights : BitVec 32) : Bool :=
  match v.find addr len with
  | none => false
  | some i => (v.ranges i).grants rights

end VirtualRanges

/-- A call that changes the list. -/
inductive Op (w n : Nat)
  | reserve (base pages : BitVec w) (flags : BitVec 8) (run : BitVec 32) (holder donor : BitVec 16)
  | grant (base pages : BitVec w) (rights : BitVec 32) (memtype : BitVec 8)
  | lend (base : BitVec w) (more : Bool)
  | release (base : BitVec w)
  | releaseAt (i : Fin n)
  | setSyncOwed (base : BitVec w) (owed : Bool)

def VirtualRanges.step (v : VirtualRanges w n) : Op w n → VirtualRanges w n
  | .reserve base pages flags run holder donor => (v.reserve base pages flags run holder donor).1
  | .grant base pages rights memtype => (v.grant base pages rights memtype).1
  | .lend base more => (v.lend base more).1
  | .release base => (v.release base).1
  | .releaseAt i => (v.releaseAt i).1
  | .setSyncOwed base owed => (v.setSyncOwed base owed).1

def VirtualRanges.run (v : VirtualRanges w n) (ops : List (Op w n)) : VirtualRanges w n := ops.foldl step v

end KickOS.Range
