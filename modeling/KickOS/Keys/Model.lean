import Mathlib.Tactic

/-! The thread-specific keys of the threads layer (`user/src/gthr.cc`), as a transition system: every access of a call
to the table of keys is a step of its own, and the threads take their steps in any order. The words of a thread are its
own, so it reads and writes them in one step.

A key is deleted once, by a caller that has it from a create, and an index is claimed less than `keyGenerations` times.
-/

namespace KickOS.Keys
open Function (update)

/-- `KICKOS_THREAD_KEYS`. -/
def threadKeys : Nat := 4

def keyGenerations : Nat := 2 ^ 32 / threadKeys

def keyPasses : Nat := 4

/-- `KEY_FREE`, `KEY_USED`, `KEY_CLAIMED`. -/
inductive KeyState where
  | free | used | claimed
  deriving DecidableEq

/-- A null pointer is zero. -/
structure Key where
  state : KeyState := .free
  gen : Nat := 0
  dtor : Nat := 0

def indexOf (key : Nat) : Nat := key % threadKeys

def genOf (key : Nat) : Nat := key / threadKeys

def keyOf (i gen : Nat) : Nat := i + threadKeys * gen

/-- The table, with the history of the keys: how often an index was claimed, the destructor each key was made with, the
keys the creates gave with their destructors, and the keys whose delete has begun. -/
structure Shared where
  key : Nat → Key := fun _ => {}
  creates : Nat → Nat := fun _ => 0
  made : Nat → Option Nat := fun _ => none
  handed : List (Nat × Nat) := []
  deleted : Nat → Bool := fun _ => false

namespace Shared

variable (sh : Shared)

def put (i : Nat) (k : Key) : Shared := { sh with key := update sh.key i k }

/-- The compare-and-swap of a create that finds the index free. -/
def claim (i : Nat) : Shared :=
  { sh.put i { sh.key i with state := .claimed } with creates := update sh.creates i (sh.creates i + 1) }

def storeGen (i gen : Nat) : Shared := sh.put i { sh.key i with gen := gen }

def storeDtor (i dtor : Nat) : Shared := sh.put i { sh.key i with dtor := dtor }

/-- The store of `KEY_USED`. -/
def publish (i dtor : Nat) : Shared :=
  { sh.put i { sh.key i with state := .used } with made := update sh.made (keyOf i (sh.key i).gen) (some dtor) }

def hand (key dtor : Nat) : Shared := { sh with handed := (key, dtor) :: sh.handed }

def beginDelete (key : Nat) : Shared := { sh with deleted := update sh.deleted key true }

def release (i : Nat) : Shared := sh.put i { sh.key i with state := .free }

def Given (key : Nat) : Prop := key ∈ sh.handed.map Prod.fst

instance (key : Nat) : Decidable (sh.Given key) := inferInstanceAs (Decidable (_ ∈ _))

end Shared

/-- What a look at a key is for: the three calls that name one, and the two of `run_destructors`. -/
inductive What where
  | delete
  | get
  | set (value : Nat)
  | first (value : Nat)
  | second (value dtor : Nat)

inductive Pc where
  /-- In the code of the program. -/
  | user
  /-- In a create, at the compare-and-swap of an index. -/
  | create (i dtor : Nat)
  /-- It has claimed the index, read its generation, stored the next one, stored the destructor, and published the key. -/
  | claimed (i dtor : Nat)
  | advance (i dtor gen : Nat)
  | store (i dtor : Nat)
  | publish (i dtor : Nat)
  | name (i dtor : Nat)
  /-- The answers of a create. -/
  | created (key dtor : Nat)
  | full
  /-- In `live`, at the load of the state and of the generation. -/
  | live (w : What) (key : Nat)
  | liveGen (w : What) (key : Nat)
  | deleting (key : Nat)
  | answered (ok : Bool)
  | getting (key : Nat)
  | got (key value : Nat)
  | setting (key value : Nat)
  | wasSet (key : Nat) (ok : Bool)
  /-- In `run_destructors`, at the head of the loop over the indices and at the load of the destructor. -/
  | scan
  | taking (key value : Nat)
  | gone

/-- Whose code a thread runs: its own, the `kickos_thread_dtors_run` of `kos_exit`, that of `run_destructors`, a
destructor, or the `kickos_thread_dtors_run` between two passes. -/
inductive Frame where
  | body | leaving | loop | inDtor | between
  deriving DecidableEq

/-- A call of a destructor in the `fin`-th end of a thread. -/
structure DtorCall where
  fin : Nat
  pass : Nat
  index : Nat
  key : Nat
  dtor : Nat
  value : Nat

/-- A thread, with its `KickosThreadWords` and the loop variables of `run_destructors`. `known` says that the key of the
call in progress was given when the call began, `held` what the thread last set under each key, less what its end took,
`sets` all it set. -/
structure Thread where
  keys : Nat → Nat := fun _ => 0
  keyGens : Nat → Nat := fun _ => 0
  pc : Pc := .user
  frame : Frame := .body
  pass : Nat := 0
  index : Nat := 0
  ran : Bool := false
  known : Bool := false
  ends : Nat := 0
  held : Nat → Nat := fun _ => 0
  sets : List (Nat × Nat) := []
  calls : List DtorCall := []

inductive Op where
  | create (dtor : Nat)
  | delete (key : Nat)
  | get (key : Nat)
  | set (key value : Nat)
  /-- `kos_exit`, which does not return, be it called from a destructor. -/
  | exit
  /-- The next step of the call in progress. -/
  | go
  /-- The code that `kos_exit` or `run_destructors` called returns. -/
  | back

namespace Thread

variable (sh : Shared) (th : Thread)

/-- `live` has found the key dead. -/
def dead (key : Nat) : What → Thread
  | .delete => { th with pc := .answered false }
  | .get => { th with pc := .got key 0 }
  | .set _ => { th with pc := .wasSet key false }
  | .first _ | .second _ _ => { th with index := th.index + 1, pc := .scan }

def alive (key : Nat) : What → Thread
  | .delete => { th with pc := .deleting key }
  | .get => { th with pc := .getting key }
  | .set value => { th with pc := .setting key value }
  | .first value => { th with pc := .taking key value }
  | .second value dtor =>
    { th with pc := .user, frame := .inDtor, calls := ⟨th.ends, th.pass, th.index, key, dtor, value⟩ :: th.calls }

/-- The head of the loop over the indices, up to the first look at the key. -/
def scan : Thread :=
  if th.index < threadKeys then
    if th.keys th.index = 0 then { th with index := th.index + 1 }
    else
      { th with
        keys := update th.keys th.index 0
        held := update th.held (keyOf th.index (th.keyGens th.index)) 0
        pc := .live (.first (th.keys th.index)) (keyOf th.index (th.keyGens th.index)) }
  else if th.ran then { th with frame := .between, pc := .user }
  else { th with pc := .gone }

def setValue (key value : Nat) : Thread :=
  { th with
    keys := update th.keys (indexOf key) value
    keyGens := update th.keyGens (indexOf key) (genOf key)
    held := update th.held key value
    sets := (key, value) :: th.sets
    pc := .wasSet key true }

def go : Option (Shared × Thread) :=
  match th.pc with
  | .user | .gone => none
  | .create i dtor =>
    if i < threadKeys then
      if (sh.key i).state = .free then
        if sh.creates i + 1 < keyGenerations then some (sh.claim i, { th with pc := .claimed i dtor }) else none
      else some (sh, { th with pc := .create (i + 1) dtor })
    else some (sh, { th with pc := .full })
  | .claimed i dtor => some (sh, { th with pc := .advance i dtor (sh.key i).gen })
  | .advance i dtor gen => some (sh.storeGen i ((gen + 1) % keyGenerations), { th with pc := .store i dtor })
  | .store i dtor => some (sh.storeDtor i dtor, { th with pc := .publish i dtor })
  | .publish i dtor => some (sh.publish i dtor, { th with pc := .name i dtor })
  | .name i dtor =>
    some (sh.hand (keyOf i (sh.key i).gen) dtor, { th with pc := .created (keyOf i (sh.key i).gen) dtor })
  | .live w key =>
    if (sh.key (indexOf key)).state = .used then some (sh, { th with pc := .liveGen w key }) else some (sh, th.dead key w)
  | .liveGen w key => if (sh.key (indexOf key)).gen = genOf key then some (sh, th.alive key w) else some (sh, th.dead key w)
  | .deleting key =>
    if (sh.key (indexOf key)).state = .used then some (sh.release (indexOf key), { th with pc := .answered true })
    else some (sh, { th with pc := .answered false })
  | .getting key =>
    some (sh, { th with pc := .got key (if th.keyGens (indexOf key) = genOf key then th.keys (indexOf key) else 0) })
  | .setting key value => some (sh, th.setValue key value)
  | .scan => some (sh, th.scan)
  | .taking key value =>
    if (sh.key (indexOf key)).dtor = 0 then some (sh, { th with index := th.index + 1, pc := .scan })
    else some (sh, { th with pc := .live (.second value (sh.key (indexOf key)).dtor) key })
  | .created _ _ | .full | .answered _ | .got _ _ | .wasSet _ _ => some (sh, { th with pc := .user })

def back : Option Thread :=
  match th.frame with
  | .body | .loop => none
  | .leaving => some { th with frame := .loop, pass := 0, index := 0, ran := false, pc := .scan }
  | .inDtor => some { th with frame := .loop, index := th.index + 1, ran := true, pc := .scan }
  | .between =>
    if th.pass + 1 < keyPasses then some { th with frame := .loop, pass := th.pass + 1, index := 0, ran := false, pc := .scan }
    else some { th with pc := .gone }

/-- What the code of the program does next. -/
def call : Op → Option (Shared × Thread)
  | .create dtor => some (sh, { th with pc := .create 0 dtor })
  | .delete key =>
    if sh.Given key ∧ sh.deleted key = false then some (sh.beginDelete key, { th with pc := .live .delete key }) else none
  | .get key => some (sh, { th with known := decide (sh.Given key), pc := .live .get key })
  | .set key value => some (sh, { th with known := decide (sh.Given key), pc := .live (.set value) key })
  | .exit => some (sh, { th with frame := .leaving, ends := th.ends + 1 })
  | .back => th.back.map (sh, ·)
  | .go => none

def step (op : Op) : Option (Shared × Thread) :=
  match th.pc with
  | .user => th.call sh op
  | _ =>
    match op with
    | .go => th.go sh
    | _ => none

end Thread

structure Sys where
  sh : Shared := {}
  thread : Nat → Thread := fun _ => {}

def Sys.step (x : Sys) (t : Nat) (op : Op) : Option Sys :=
  ((x.thread t).step x.sh op).map fun r => { sh := r.1, thread := update x.thread t r.2 }

def Sys.run (x : Sys) : List (Nat × Op) → Option Sys
  | [] => some x
  | op :: ops => (x.step op.1 op.2).bind (run · ops)

inductive Reachable : Sys → Prop where
  | start : Reachable {}
  | step {x y : Sys} (t : Nat) (op : Op) (hx : Reachable x) (hs : x.step t op = some y) : Reachable y

end KickOS.Keys
