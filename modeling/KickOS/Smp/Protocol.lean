import KickOS.Smp.Machine

/-! What the cores do with the scheduler.

A kernel operation is one span of the kernel lock: a sequence of scheduler calls made by the core that
holds it, possibly with a park or an exit of the thread it runs. Which calls a span makes, with which
threads, priorities and masks, is left open, so a run is any interleaving of any such spans with the
drains, the publishing of what a span staged and the switches that complete. -/

namespace KickOS
namespace Smp
open Function (update)
namespace Machine

variable {m n : Nat}

/-! ### The scheduler's entries (`sched.cc`) -/

/-- `wake_no_resched`: only a parked thread is readied. -/
def wakeNoResched (k : Machine m n) (i : Fin n) (me : Fin m) : Machine m n × Bool :=
  if k.state (.slot i) = .blocked then
    ((k.setState (.slot i) .ready).publishReady (.slot i) (k.homeFor (.slot i) me) me, true)
  else (k, false)

/-- `resched_after_wake`: no switch before start, during an exit, or at an exiting thread's level. -/
def reschedAfterWake (k : Machine m n) (i : Fin n) (me : Fin m) : Machine m n :=
  match k.current me with
  | none => k.placeAndAsk (.slot i) me
  | some c =>
    if k.state c = .exited ∨ ((k.thr c).dying ∧ (k.thr (.slot i)).prio ≤ (k.thr c).prio) then
      k.placeAndAsk (.slot i) me
    else k.pickAndSeat (some (.slot i)) me

/-- `reschedule`, where the core has a thread to leave. -/
def reschedule (k : Machine m n) (me : Fin m) : Machine m n :=
  if (k.current me).isSome then k.pickAndSeat none me else k

/-- `set_prio`. -/
def setPrio (k : Machine m n) (i : Fin n) (p : Prio) (me : Fin m) : Machine m n :=
  let t : Tid m n := .slot i
  if (k.thr t).prio = p then k
  else if k.linkedHere t me then
    let old := (k.thr t).rqPrio
    let k := ((k.policyOnRemove t).setThr t fun x => { x with prio := p, rqPrio := p }).policyOnReady t
    if k.state t = .ready then
      let r := k.place t me
      if r.2 then r.1.reschedSelf me else r.1
    else if k.current me = some t ∧ old < p then
      { k with seatedPrio := update k.seatedPrio me p }
    else k
  else (k.setThr t fun x => { x with prio := p }).ringReseat i me

/-- `set_affinity`. -/
def setAffinity (k : Machine m n) (i : Fin n) (mask : BitVec 32) (me : Fin m) : Machine m n :=
  let t : Tid m n := .slot i
  if (k.thr t).affinity = mask then k
  else
    let k := k.setThr t fun x => { x with affinity := mask }
    if k.linkedHere t me then
      if k.state t = .ready then
        let r := k.place t me
        if r.2 then r.1.reschedule me else r.1
      else if k.placeableOn t me then k else k.reschedule me
    else k.ringReseat i me

/-- `reseat`. -/
def reseat (k : Machine m n) (i : Fin n) (me : Fin m) : Machine m n :=
  if k.linkedHere (.slot i) me then k.reschedSelf me else k.ringReseat i me

/-- `thread_cancel_kind` up to the unpark it may go on to: the request is recorded once, upwards only,
    and a slay of a thread a peer runs asks that peer for a pass. -/
def cancelKind (k : Machine m n) (i : Fin n) (kind : CancelKind) (me : Fin m) : Machine m n :=
  let t : Tid m n := .slot i
  if k.state t = .exited ∨ k.state t = .inactive ∨ (k.thr t).dying ∨
      kind.rank ≤ (k.thr t).cancelKind.rank then k
  else
    let k := k.setThr t fun x => { x with cancelKind := kind }
    if k.current me = some t then k
    else if kind = .slay ∧ k.state t = .running then k.reseat i me
    else k

/-- `yield`, and the rotation of a spent slice. Both are of the thread that runs, never of one its span
    has parked. -/
def yield (k : Machine m n) (me : Fin m) : Machine m n :=
  match k.current me with
  | none => k
  | some c => if k.state c = .running then (k.rqRotate c).reschedule me else k

/-- `add`: a thread built and not yet added. A zero mask is an unused slot. -/
def add (k : Machine m n) (i : Fin n) (me : Fin m) : Machine m n :=
  let t : Tid m n := .slot i
  if k.state t = .inactive ∧ (k.thr t).affinity ≠ 0#32 then
    ((k.setState t .ready).publishReady t (k.homeFor t me) me).placeAndAsk t me
  else k

/-- A core's idle thread, bound to it and linked on it. -/
def linkIdle (k : Machine m n) (c : Fin m) : Machine m n :=
  (k.setThr (.idle c) fun x => { x with state := .ready, affinity := 1#32 <<< c.val }).linkReady (.idle c) c

/-- `add_idle`: the one link made for another core, before that core starts. -/
def addIdle (k : Machine m n) (c : Fin m) : Machine m n :=
  if k.state (.idle c) = .inactive then
    { k.linkIdle c with idle := update k.idle c (some (.idle c)) }
  else k

/-- `start`: a core's first pass, on what was handed to it before it started. -/
def start (k : Machine m n) (me : Fin m) : Machine m n :=
  if k.current me = none ∧ (k.idle me).isSome then
    let k := (k.ringDrain me false (k.cursor me) (wordMod - 1) 0).1
    match k.policyPickNext me with
    | none => k
    | some first =>
      let k := k.seatRunning first me
      let k := { k with onCpu := update k.onCpu me (some first) }
      let k := (k.publishTop me (k.readyBitmap me)).placeDeclined first none me
      let k := { k with seatedPrio := update k.seatedPrio me (k.thr first).rqPrio }
      k.dropScan me
  else k

/-- `kickos_kernel_core_resched_if_owed`: the doorbell's pass, and the only place a ring is drained
    once the core has started. -/
def doorbell (k : Machine m n) (me : Fin m) : Machine m n :=
  if k.owed me then
    let k := { k with owed := update k.owed me false }
    if (k.current me).isSome then
      let r := k.ringDrain me true (k.cursor me) schedDrainBudget 0
      let k := if r.2 then r.1.reschedSelf me else r.1
      (k.pushTake me).reschedule me
    else k
  else k

/-- `kickos_thread_contain_wild_stack`: the thread the core stands on is slain where it stands. -/
def contain (k : Machine m n) (me : Fin m) : Machine m n :=
  match k.onCpu me with
  | some (.slot i) =>
    let k := k.cancelKind i .slay me
    if k.slayClaimPending (.slot i) ∧ k.current me = some (.slot i) then
      match k.policyPickNext me with
      | some next => k.switchBook next me
      | none => k
    else k
  | _ => k

/-! ### Threads coming and going -/

/-- `KICKOS_CORE_SET_ALL`. -/
def coreSetAll (m : Nat) : BitVec 32 := BitVec.ofNat 32 (2 ^ m - 1)

/-- `sched_admit_mask`: a set of acceptable cores within the grant, never empty. -/
def admitMask (m : Nat) (requested grant : BitVec 32) : Option (BitVec 32) :=
  let admitted := requested &&& coreSetAll m &&& grant
  if admitted = 0#32 then none else some admitted

/-- The boot core, and what a zeroed core index names. -/
def bootCore [NeZero m] : Fin m := ⟨0, Nat.pos_of_neZero m⟩

/-- `thread_create`, on a slot never used or given back: the byte that says a request is in flight is
    the slot's and outlives its occupant. -/
def create [NeZero m] (k : Machine m n) (i : Fin n) (prio : Prio) (mask : BitVec 32) : Machine m n :=
  let t : Tid m n := .slot i
  if k.state t = .exited ∨ (k.state t = .inactive ∧ (k.thr t).affinity = 0#32) then
    k.setThr t fun x =>
      { state := .inactive, prio := prio, rqPrio := prioIdle, queueCore := bootCore, affinity := mask,
        reseatOwed := x.reseatOwed, cancelKind := .none, dying := false }
  else k

/-- The first half of `exit_current`, ahead of the capability sweep. -/
def exitBegin (k : Machine m n) (me : Fin m) : Machine m n :=
  match k.current me with
  | some (.slot i) => k.setThr (.slot i) fun x => { x with dying := true }
  | _ => k

/-- The running thread leaves the ready structure: `park_queueless`, or the end of `exit_current`. -/
def leave (k : Machine m n) (i : Fin n) (st : TState) : Machine m n :=
  (k.setState (.slot i) st).policyOnRemove (.slot i)

end Machine

variable {m n : Nat}

/-- What a span asks of the scheduler. -/
inductive Call (n : Nat) where
  | wake (i : Fin n)
  | wakeNoResched (i : Fin n)
  | placeReady (i : Fin n)
  | reschedAfterWake (i : Fin n)
  | setPrio (i : Fin n) (p : Prio)
  | setAffinity (i : Fin n) (requested grant : BitVec 32)
  | cancel (i : Fin n) (kind : CancelKind)
  | yield
  | reschedule
  | add (i : Fin n)
  | create (i : Fin n) (prio : Prio) (requested grant : BitVec 32)
  | exitBegin

/-- A span in progress: the machine, and the threads the span readied and has not had weighed by a
    pass. Only those may be placed or passed on as woken. -/
structure Span (m n : Nat) where
  k : Machine m n
  woken : List (Fin n)

namespace Call

open Machine

/-- `wake_no_resched` answered true for `i`. The thread a core runs is never one it readies: it is
    running, or has just been parked by this very span. -/
def ready (s : Span m n) (i : Fin n) (me : Fin m) : Span m n :=
  if s.k.current me = some (.slot i) then s
  else
    let r := s.k.wakeNoResched i me
    ⟨r.1, if r.2 then i :: s.woken else s.woken⟩

/-- `resched_after_wake` of a thread this span readied. -/
def settle (s : Span m n) (i : Fin n) (me : Fin m) : Span m n :=
  if i ∈ s.woken then ⟨s.k.reschedAfterWake i me, []⟩ else s

def run [NeZero m] (me : Fin m) (s : Span m n) : Call n → Span m n
  | .wake i => settle (ready s i me) i me
  | .wakeNoResched i => ready s i me
  | .placeReady i => if i ∈ s.woken then ⟨s.k.placeAndAsk (.slot i) me, s.woken⟩ else s
  | .reschedAfterWake i => settle s i me
  | .setPrio i p => ⟨s.k.setPrio i p me, s.woken⟩
  | .setAffinity i requested grant =>
    match admitMask m requested grant with
    | some mask =>
      if s.k.state (.slot i) = .exited ∨ s.k.state (.slot i) = .inactive then s
      else ⟨s.k.setAffinity i mask me, []⟩
    | none => s
  | .cancel i kind => ⟨s.k.cancelKind i kind me, s.woken⟩
  | .yield => ⟨s.k.yield me, []⟩
  | .reschedule => ⟨s.k.reschedule me, []⟩
  | .add i => ⟨s.k.add i me, s.woken⟩
  | .create i prio requested grant =>
    -- An exit creates nothing on the slot it is giving back.
    match admitMask m requested grant with
    | some mask => if s.k.current me = some (.slot i) then s else ⟨s.k.create i prio mask, s.woken⟩
    | none => s
  | .exitBegin => ⟨s.k.exitBegin me, s.woken⟩

end Call

/-- What happens next, and on which core. -/
inductive Op (m n : Nat) where
  | span (me : Fin m) (calls : List (Call n))
  | park (me : Fin m) (before after : List (Call n)) (woken : Option (Fin n))
  | exit (me : Fin m) (before after : List (Call n))
  | doorbell (me : Fin m)
  | flush (me : Fin m)
  | switched (me : Fin m)
  | contain (me : Fin m)
  | addIdle (c : Fin m)
  | start (me : Fin m)

namespace Op

open Machine

def calls [NeZero m] (me : Fin m) (s : Span m n) (l : List (Call n)) : Span m n :=
  l.foldl (Call.run me) s

/-- The thread to be weighed by the pass that ends a park, if this span readied it. -/
def weighed (s : Span m n) (woken : Option (Fin n)) : Option (Tid m n) :=
  match woken with
  | some i => if i ∈ s.woken then some (.slot i) else none
  | none => none

def run [NeZero m] (k : Machine m n) : Op m n → Machine m n
  | .span me l => (calls me ⟨k, []⟩ l).k
  | .park me before after woken =>
    let s := calls me ⟨k, []⟩ before
    match s.k.current me with
    | some (.slot i) =>
      let s := calls me ⟨s.k.leave i .blocked, s.woken⟩ after
      s.k.pickAndSeat (weighed s woken) me
    | _ => s.k
  | .exit me before after =>
    let s := calls me ⟨k, []⟩ before
    match s.k.current me with
    | some (.slot i) => (calls me ⟨s.k.leave i .exited, s.woken⟩ after).k.pickAndSeat none me
    | _ => s.k
  | .doorbell me => k.doorbell me
  | .flush me => k.flush me
  | .switched me => { k with onCpu := update k.onCpu me (k.current me) }
  | .contain me => k.contain me
  | .addIdle c => k.addIdle c
  | .start me => k.start me

end Op

/-- Before any thread exists and any core has started. -/
def boot [NeZero m] [NeZero n] : Machine m n where
  thr _ :=
    { state := .inactive, prio := prioIdle, rqPrio := prioIdle, queueCore := Machine.bootCore, affinity := 0#32,
      reseatOwed := false, cancelKind := .none, dying := false }
  ready _ _ := []
  readyBitmap _ := 0#32
  level _ := 0
  current _ := none
  idle _ := none
  onCpu _ := none
  seatedPrio _ := prioIdle
  ring _ _ := { cells := fun _ => .hand ⟨0, Nat.pos_of_neZero n⟩, staged := 0, head := 0, tail := 0 }
  raise _ _ := false
  dropAsked _ _ := 0
  dropTook _ _ := 0
  cursor _ := Machine.bootCore
  owed _ := false

/-- A state of the machine after some interleaving of the cores. -/
inductive Reachable [NeZero m] [NeZero n] : Machine m n → Prop where
  | boot : Reachable boot
  | step {k : Machine m n} (op : Op m n) : Reachable k → Reachable (op.run k)

end Smp
end KickOS
