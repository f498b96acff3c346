import Mathlib.Tactic
import KickOS.Lib.Ring

/-! The multi-core scheduler: the per-core ready structures, the per-pair rings and the placement rule.

One set of ready lists per core, one ring per ordered pair of cores. A thread bound for a peer is
handed: off every ready list, named by an entry of the ring toward the core that will link it. A
request to re-read a thread's fields travels the same rings. Every function here runs with the kernel
lock held by the core it names. Slices, address spaces and traces are left out. -/

namespace KickOS
namespace Smp
open Function (update)

inductive TState where
  | inactive
  | ready
  | running
  | blocked
  | exited
  | handed
  deriving DecidableEq, Repr

inductive CancelKind where
  | none
  | kill
  | slay
  deriving DecidableEq, Repr

def CancelKind.rank : CancelKind → Nat
  | .none => 0
  | .kill => 1
  | .slay => 2

abbrev numPrio : Nat := 32
abbrev Prio := Fin numPrio
def prioIdle : Prio := 0

/-- A thread: a slot of the pool, or a core's idle thread, which no ring can name. -/
inductive Tid (m n : Nat) where
  | slot (i : Fin n)
  | idle (c : Fin m)
  deriving DecidableEq, Repr

/-- A ring entry names a pool slot, as a hand-off or as a request to re-read it. -/
inductive Entry (n : Nat) where
  | hand (i : Fin n)
  | reseat (i : Fin n)
  deriving DecidableEq, Repr

structure Tcb (m : Nat) where
  state : TState
  prio : Prio
  rqPrio : Prio
  queueCore : Fin m
  affinity : BitVec 32
  reseatOwed : Bool
  cancelKind : CancelKind
  dying : Bool

/-- `sched_ring_depth_for`: the least power of two that is not below `entries`. -/
def ringDepthFrom (entries depth : Nat) : Nat :=
  if h : depth < entries ∧ 0 < depth then ringDepthFrom entries (depth * 2) else depth
termination_by entries - depth
decreasing_by omega

def ringDepthFor (entries : Nat) : Nat := ringDepthFrom entries 1

/-- The depth of every ring of a pool of `n` thread slots. -/
def ringDepth (n : Nat) : Nat := ringDepthFor (2 * n)

/-- Where the free-running counters wrap. -/
def wordMod : Nat := 2 ^ 32

/-- One dispatch applies at most this many entries. -/
def schedDrainBudget : Nat := 8

structure Machine (m n : Nat) where
  thr : Tid m n → Tcb m
  ready : Fin m → Prio → List (Tid m n)
  readyBitmap : Fin m → BitVec 32
  /-- `SchedOut::level`: the top of the bitmap plus one, zero before the core starts. -/
  level : Fin m → Nat
  current : Fin m → Option (Tid m n)
  idle : Fin m → Option (Tid m n)
  onCpu : Fin m → Option (Tid m n)
  seatedPrio : Fin m → Prio
  /-- `ring p c`: what core `p` writes toward core `c`. -/
  ring : Fin m → Fin m → Lib.Ring (Entry n)
  raise : Fin m → Fin m → Bool
  dropAsked : Fin m → Fin m → Nat
  dropTook : Fin m → Fin m → Nat
  cursor : Fin m → Fin m
  /-- Whether a reschedule is owed to the core and not taken (`klock_resched_owed`). -/
  owed : Fin m → Bool

variable {m n : Nat}

/-- What is staged from `p` toward `c` and not drained. -/
def Machine.inFlight (k : Machine m n) (p c : Fin m) : List (Entry n) :=
  (k.ring p c).contents wordMod (ringDepth n)

namespace Machine

def state (k : Machine m n) (t : Tid m n) : TState := (k.thr t).state

def setThr (k : Machine m n) (t : Tid m n) (f : Tcb m → Tcb m) : Machine m n :=
  { k with thr := update k.thr t (f (k.thr t)) }

def setState (k : Machine m n) (t : Tid m n) (st : TState) : Machine m n :=
  k.setThr t fun x => { x with state := st }

/-- On a ready list: `READY` or `RUNNING`. -/
def Linked (k : Machine m n) (t : Tid m n) : Prop := k.state t = .ready ∨ k.state t = .running

instance (k : Machine m n) (t : Tid m n) : Decidable (k.Linked t) :=
  inferInstanceAs (Decidable (_ ∨ _))

/-- `thread_slay_claim_pending`. -/
def slayClaimPending (k : Machine m n) (t : Tid m n) : Bool :=
  (k.thr t).cancelKind = .slay && !(k.thr t).dying

/-- `sched_placeable_on`. -/
def placeableOn (k : Machine m n) (t : Tid m n) (c : Fin m) : Bool :=
  (k.thr t).affinity.getLsbD c

/-- The mask names a core other than `me`. -/
def roams (k : Machine m n) (t : Tid m n) (me : Fin m) : Bool :=
  (k.thr t).affinity &&& ~~~(1#32 <<< me.val) ≠ 0#32

/-- `sched_home_for`: the asker if the mask admits it, else the lowest core the mask names. -/
def homeFor (k : Machine m n) (t : Tid m n) (asker : Fin m) : Fin m :=
  if k.placeableOn t asker then asker
  else ((List.finRange m).find? fun c => k.placeableOn t c).getD asker

/-! ### The ready structure (`policy_fifo_rr.cc`) -/

/-- The set bits of a bitmap, highest first. -/
def bitsDown (bm : BitVec 32) : List Prio :=
  (List.finRange numPrio).reverse.filter fun p => bm.getLsbD p

/-- `top_prio`, plus one: zero for an empty bitmap. -/
def topLevel (bm : BitVec 32) : Nat :=
  match (bitsDown bm).head? with
  | some p => p.val + 1
  | none => 0

/-- `publish_top`: a started core's cell follows its bitmap. -/
def publishTop (k : Machine m n) (c : Fin m) (topOf : BitVec 32) : Machine m n :=
  if (k.current c).isSome then { k with level := update k.level c (topLevel topOf) } else k

def setReady (k : Machine m n) (c : Fin m) (p : Prio) (l : List (Tid m n)) : Machine m n :=
  { k with ready := update k.ready c (update (k.ready c) p l) }

def setBitmap (k : Machine m n) (c : Fin m) (bm : BitVec 32) : Machine m n :=
  { k with readyBitmap := update k.readyBitmap c bm }

/-- `policy_on_ready`: the tail of the list of the core and key the thread was seated with. -/
def policyOnReady (k : Machine m n) (t : Tid m n) : Machine m n :=
  let c := (k.thr t).queueCore
  let key := (k.thr t).rqPrio
  let bm := k.readyBitmap c
  let k := (k.setReady c key (k.ready c key ++ [t])).setBitmap c (bm ||| (1#32 <<< key.val))
  if bm >>> key.val = 0#32 then k.publishTop c (1#32 <<< key.val) else k

/-- `policy_on_remove`. -/
def policyOnRemove (k : Machine m n) (t : Tid m n) : Machine m n :=
  let c := (k.thr t).queueCore
  let key := (k.thr t).rqPrio
  let l := (k.ready c key).erase t
  let k := k.setReady c key l
  if l.isEmpty then
    let bm := k.readyBitmap c &&& ~~~(1#32 <<< key.val)
    let k := k.setBitmap c bm
    if bm >>> key.val = 0#32 then k.publishTop c bm else k
  else k

/-- `rq_rotate`. -/
def rqRotate (k : Machine m n) (t : Tid m n) : Machine m n :=
  let c := (k.thr t).queueCore
  let key := (k.thr t).rqPrio
  let l := k.ready c key
  if l.head? = l.getLast? then k else k.setReady c key (l.erase t ++ [t])

/-- `available_to`: a thread a peer runs and a peer's idle are reserved to that core. -/
def availableTo (k : Machine m n) (t : Tid m n) (c : Fin m) : Bool :=
  if k.onCpu c = some t && k.slayClaimPending t then false
  else if k.current c = some t then k.placeableOn t c
  else if k.state t = .running then false
  else if (k.thr t).prio = prioIdle && k.idle c ≠ some t then false
  else k.placeableOn t c

/-- `started`. -/
def started (k : Machine m n) (c : Fin m) : Bool := k.level c ≠ 0

/-- `level` plus one: what the core's next pass seats with `t` taken out of account. -/
def levelWithout (k : Machine m n) (c : Fin m) (t : Tid m n) : Nat :=
  let bm := k.readyBitmap c
  if (k.thr t).queueCore = c && k.ready c (k.thr t).rqPrio = [t] then
    topLevel (bm &&& ~~~(1#32 <<< (k.thr t).rqPrio.val))
  else topLevel bm

/-- `policy_pick_next`. -/
def policyPickNext (k : Machine m n) (c : Fin m) : Option (Tid m n) :=
  ((bitsDown (k.readyBitmap c)).findSome? fun p => (k.ready c p).find? fun t => k.availableTo t c).or
    (k.idle c)

def Entry.thread : Entry n → Fin n
  | .hand i => i
  | .reseat i => i

/-- `sched_effective_level` plus one: the core's cell, or what is on its way there if that is higher. -/
def effectiveLevel (k : Machine m n) (c : Fin m) : Nat :=
  (List.finRange m).foldl (fun lvl p =>
    (k.inFlight p c).foldl (fun lvl e =>
      let x := k.thr (.slot (Entry.thread e))
      if x.queueCore = c ∧ lvl < x.prio.val + 1 ∧
          (x.state = .handed ∨ x.state = .ready ∨ x.state = .running) then x.prio.val + 1
      else lvl) lvl) (k.level c)

structure SchedPlacement (m : Nat) where
  core : Fin m
  below : Bool

/-- `policy_place`: the home while its level is below the thread's priority, else the lowest level
    strictly below, ties to the lowest index. Levels carry their one as the cells do. -/
def policyPlace (k : Machine m n) (t : Tid m n) (home : Fin m) : SchedPlacement m :=
  let prio := (k.thr t).prio.val + 1
  let lvl := if home = (k.thr t).queueCore then k.levelWithout home t else k.effectiveLevel home
  if k.started home && k.placeableOn t home && lvl < prio then ⟨home, true⟩
  else
    let best := (List.finRange m).foldl (fun (b : Fin m × Nat) c =>
      if c = home ∨ k.placeableOn t c = false then b
      else if k.level c = 0 ∨ b.2 ≤ k.level c then b
      else if k.effectiveLevel c < b.2 then (c, k.effectiveLevel c) else b) (home, prio)
    ⟨best.1, best.1 ≠ home⟩

/-- `policy_push_candidate`: the first thread, from the top, that waits on `holder` behind equal or
    higher priority and ranks strictly above `target`. -/
def policyPushCandidate (k : Machine m n) (holder target : Fin m) : Option (Tid m n) :=
  let floor := k.effectiveLevel target
  ((bitsDown (k.readyBitmap holder)).filter fun p => floor ≤ p.val ∧ prioIdle < p).findSome? fun p =>
    (k.ready holder p).find? fun t =>
      k.current holder ≠ some t && k.state t = .ready && !k.slayClaimPending t &&
        k.placeableOn t target && p.val + 1 ≤ k.levelWithout holder t

/-- What `policy_declined` answers of a thread: it waits here, may go elsewhere and owes no claim. -/
def declined (k : Machine m n) (c : Fin m) (t : Tid m n) : Bool :=
  k.current c ≠ some t && k.state t = .ready && !k.slayClaimPending t && k.roams t c

/-! ### Publishing and the rings (`sched.cc`) -/

/-- `link_ready`: onto `home`'s own structure. -/
def linkReady (k : Machine m n) (t : Tid m n) (home : Fin m) : Machine m n :=
  (k.setThr t fun x => { x with queueCore := home, rqPrio := x.prio }).policyOnReady t

/-- `ring_stage`. -/
def ringStage (k : Machine m n) (me dst : Fin m) (e : Entry n) : Machine m n :=
  { k with
    ring := update k.ring me
      (update (k.ring me) dst ((k.ring me dst).stage wordMod (ringDepth n) e))
    raise := update k.raise me (update (k.raise me) dst true) }

/-- `hand_to`. Idle threads are outside the pool and never handed. -/
def handTo (k : Machine m n) (t : Tid m n) (home me : Fin m) : Machine m n :=
  match t with
  | .slot i => (k.setThr t fun x => { x with queueCore := home, state := .handed }).ringStage me home (.hand i)
  | .idle _ => k

/-- `publish_ready`: the one place a thread enters a ready structure, and only the calling core's. -/
def publishReady (k : Machine m n) (t : Tid m n) (home me : Fin m) : Machine m n :=
  if home = me then k.linkReady t home else k.handTo t home me

/-- `linked_here`. -/
def linkedHere (k : Machine m n) (t : Tid m n) (me : Fin m) : Bool :=
  k.Linked t ∧ (k.thr t).queueCore = me

/-- `ring_reseat`: ask the core `t` is linked on or headed to that its fields be re-read. -/
def ringReseat (k : Machine m n) (i : Fin n) (me : Fin m) : Machine m n :=
  let t : Tid m n := .slot i
  if k.Linked t ∨ (k.state t = .handed ∧ (k.thr t).queueCore ≠ me) then
    if (k.thr t).reseatOwed then k
    else (k.setThr t fun x => { x with reseatOwed := true }).ringStage me (k.thr t).queueCore (.reseat i)
  else k

/-- `klock_resched_self`. -/
def reschedSelf (k : Machine m n) (me : Fin m) : Machine m n :=
  { k with owed := update k.owed me true }

/-- `place`: moves `t`, `READY` and linked here, to where the placement rule puts it, and answers
    whether this core's next pass takes it. -/
def place (k : Machine m n) (t : Tid m n) (me : Fin m) : Machine m n × Bool :=
  let p := k.policyPlace t (k.homeFor t me)
  if p.core = me then (k, p.below)
  else ((k.policyOnRemove t).publishReady t p.core me, false)

/-- `place_and_ask`. -/
def placeAndAsk (k : Machine m n) (t : Tid m n) (me : Fin m) : Machine m n :=
  if k.state t = .handed then k else (k.place t me).1

/-- `drop_scan`: every started peer above this core is asked for what it would take. -/
def dropScan (k : Machine m n) (me : Fin m) : Machine m n :=
  let mine := k.effectiveLevel me
  (List.finRange m).foldl (fun k' h =>
    if h = me ∨ k.level h = 0 ∨ k.effectiveLevel h ≤ mine then k'
    else
      { k' with
        dropAsked := update k'.dropAsked me
          (update (k'.dropAsked me) h ((k'.dropAsked me h + 1) % wordMod))
        raise := update k'.raise me (update (k'.raise me) h true) }) k

/-- One asker of `push_take`, re-validated now. -/
def pushTakeFrom (k : Machine m n) (me c : Fin m) : Machine m n :=
  if c = me ∨ k.dropAsked c me = k.dropTook me c then k
  else
    let k := { k with
      dropTook := update k.dropTook me (update (k.dropTook me) c (k.dropAsked c me)) }
    match k.policyPushCandidate me c with
    | some t => (k.policyOnRemove t).publishReady t c me
    | none => k

/-- `push_take`. -/
def pushTake (k : Machine m n) (me : Fin m) : Machine m n :=
  (List.finRange m).foldl (fun k c => k.pushTakeFrom me c) k

/-- `place_declined`: a pass that seats above what this core ran places every `READY` thread here
    ranked above that and at or below `next`. The walk holds the node it resumes at, and placing a
    thread unlinks no other, so each list is walked as it stood when the walk reached its level. -/
def placeDeclined (k : Machine m n) (next : Tid m n) (woken : Option (Tid m n)) (me : Fin m) :
    Machine m n :=
  ((List.finRange numPrio).reverse.filter fun p =>
      p ≤ (k.thr next).rqPrio ∧ k.seatedPrio me < p ∧ prioIdle < p).foldl
    (fun k p =>
      (k.ready me p).foldl (fun k t =>
        if k.declined me t ∧ woken ≠ some t ∧ t ≠ next then (k.place t me).1 else k) k) k

/-- `seat_level`. -/
def seatLevel (k : Machine m n) (next : Tid m n) (me : Fin m) : Machine m n :=
  let k' := if (k.thr next).rqPrio < k.seatedPrio me then k.dropScan me else k
  { k' with seatedPrio := update k'.seatedPrio me (k.thr next).rqPrio }

/-- `ring_apply`. -/
def ringApply (k : Machine m n) (e : Entry n) (me : Fin m) (placeIt : Bool) : Machine m n :=
  match e with
  | .reseat i =>
    let t : Tid m n := .slot i
    if k.linkedHere t me then
      let old := (k.thr t).rqPrio
      let k := k.setThr t fun x => { x with reseatOwed := false }
      let k := if (k.thr t).prio ≠ old then
          ((k.policyOnRemove t).setThr t fun x => { x with rqPrio := x.prio }).policyOnReady t
        else k
      if k.state t = .running then
        if k.current me = some t ∧ old < (k.thr t).rqPrio then
          { k with seatedPrio := update k.seatedPrio me (k.thr t).rqPrio }
        else k
      else if placeIt then (k.place t me).1 else k
    else if k.Linked t then k.ringStage me (k.thr t).queueCore (.reseat i)
    else k.setThr t fun x => { x with reseatOwed := false }
  | .hand i =>
    let t : Tid m n := .slot i
    if k.placeableOn t me then
      let k := (k.setState t .ready).linkReady t me
      if placeIt then (k.place t me).1 else k
    else k.publishReady t (k.homeFor t me) me

def retire (k : Machine m n) (p c : Fin m) : Machine m n :=
  { k with ring := update k.ring p (update (k.ring p) c ((k.ring p c).retire wordMod)) }

/-- The producer after `p`, the cores taken in a circle. -/
def nextCore (p : Fin m) : Fin m :=
  if h : p.val + 1 < m then ⟨p.val + 1, h⟩ else ⟨0, by omega⟩

/-- The entry a drain finds at producer `p`, which is never the draining core itself. -/
def entryFrom (k : Machine m n) (p me : Fin m) : Option (Entry n) :=
  if p = me then none else (k.ring p me).front? (ringDepth n)

/-- `ring_drain`: at most `left` entries toward `me`, one per producer in turn from `p`. Answers
    whether any is left. -/
def ringDrain (k : Machine m n) (me : Fin m) (placeIt : Bool) (p : Fin m) (left dry : Nat) :
    Machine m n × Bool :=
  if dry < m then
    match k.entryFrom p me with
    | none => ringDrain k me placeIt (nextCore p) left (dry + 1)
    | some e =>
      match left with
      | 0 => ({ k with cursor := update k.cursor me p }, true)
      | left + 1 => ringDrain ((k.retire p me).ringApply e me placeIt) me placeIt (nextCore p) left 0
  else ({ k with cursor := update k.cursor me p }, false)
termination_by (left, m - dry)

/-! ### Passes -/

/-- `seat_running`. -/
def seatRunning (k : Machine m n) (next : Tid m n) (me : Fin m) : Machine m n :=
  { k with current := update k.current me (some next) }.setState next .running

/-- `switch_book`, the outgoing side: a thread that ran is ready from here, and one whose slay claim is
    outstanding has this core owe it a pass. -/
def bookOut (k : Machine m n) (prev : Tid m n) (me : Fin m) : Machine m n :=
  if k.state prev = .running then
    if k.slayClaimPending prev then (k.setState prev .ready).reschedSelf me else k.setState prev .ready
  else k

/-- Whether the thread switched away from is to be placed: it ran, may run elsewhere, and does not
    stay for its own claim. -/
def displaced (k : Machine m n) (prev : Tid m n) (me : Fin m) : Bool :=
  k.state prev = .running && k.roams prev me && (!k.slayClaimPending prev || !k.placeableOn prev me)

/-- A slay claim fires at the switch into its victim. -/
def claim (k : Machine m n) (next : Tid m n) : Machine m n :=
  if k.slayClaimPending next then k.setThr next fun x => { x with dying := true } else k

/-- `switch_book`: the scheduling half. -/
def switchBook (k : Machine m n) (next : Tid m n) (me : Fin m) : Machine m n :=
  match k.current me with
  | none => k
  | some prev =>
    let k' := (k.bookOut prev me).seatRunning next me
    let k' := if k.displaced prev me then (k'.place prev me).1 else k'
    (k'.seatLevel next me).claim next

/-- The woken thread a pass did not take is placed. -/
def placeWoken (k : Machine m n) (woken : Option (Tid m n)) (next : Tid m n) (me : Fin m) : Machine m n :=
  match woken with
  | some w => if next ≠ w ∧ k.state w ≠ .handed then (k.place w me).1 else k
  | none => k

/-- `pick_and_seat`. -/
def pickAndSeat (k : Machine m n) (woken : Option (Tid m n)) (me : Fin m) : Machine m n :=
  match k.policyPickNext me with
  | none => k
  | some next =>
    let k := k.placeWoken woken next me
    let k := if k.seatedPrio me < (k.thr next).rqPrio then k.placeDeclined next woken me else k
    if k.current me = some next then k.seatLevel next me else k.switchBook next me

/-- `sched_flush_owed`: publishes what `me` staged and asks each core it raises. -/
def flush (k : Machine m n) (me : Fin m) : Machine m n :=
  { k with
    raise := update k.raise me fun _ => false
    ring := update k.ring me fun dst =>
      if k.raise me dst then (k.ring me dst).publish else k.ring me dst
    owed := fun dst => k.owed dst || (k.raise me dst && dst ≠ me) }

end Machine
end Smp
end KickOS
