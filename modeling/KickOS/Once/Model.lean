import KickOS.Kernel.Waiters
import KickOS.Mutex.Run

/-! Call once (`user/src/gthr_once.cc`) on one word, as a transition system.

Every load and every compare-and-swap of the user side is a step of its own. A wait and a wake of the kernel load the
word and commit later, under the kernel's lock, and in between the compare-and-swap of another thread may move it. A
function may call other onces and throw; it does not call its own once. -/

namespace KickOS
namespace Once
open Kernel Mutex

/-- `UNTOUCHED`, `RUNNING`, `DONE`. -/
def untouched : Nat := 0

def running : Nat := 1

def done : Nat := 2

/-- How a call came to `settle`: the function returned or threw, or it was called inline. -/
inductive How where
  | returned | thrown | inline
  deriving DecidableEq

/-- The value `settle` is given. -/
def How.value : How → Nat
  | .thrown => untouched
  | .returned | .inline => done

/-- Where a thread is in `__kickos_gthr_once`. -/
inductive Pc where
  | out
  /-- At the head of the loop, with the word it read. -/
  | loop (v : Word)
  /-- In front of `kos_word_wait`, with the word it expects. -/
  | enter (want : Word)
  /-- Parked in the kernel, or on the way back. -/
  | inside
  /-- Back from `kos_word_wait`. -/
  | again
  /-- In `run`, in front of its look at the word. -/
  | run
  | func
  /-- In the function of a once the thread runs already. -/
  | inline
  /-- In `settle`, in front of its load. -/
  | settle (how : How)
  /-- At the head of the loop of `settle`, with the word it read. -/
  | swap (how : How) (v : Word)
  /-- In `kos_word_wake`. -/
  | waking (how : How)
  /-- Behind `settle`. -/
  | settled (how : How)
  deriving DecidableEq

/-- What a run shows of the calls. -/
inductive Event where
  | began (t : Tid)
  | completed (t : Tid)
  | threw (t : Tid)
  /-- A call returned. -/
  | returned (t : Tid)
  /-- An exception left a call. -/
  | left (t : Tid)
  deriving DecidableEq

structure Sys where
  k : Kernel
  pc : Tid → Pc := fun _ => .out
  /-- The onces a thread runs, listed from its cell. -/
  own : Tid → List Key := fun _ => []
  /-- `next` of the node of this once on the stack of a thread. -/
  next : Tid → List Key := fun _ => []
  /-- The thread whose wait or wake is in progress, with the word it loaded. -/
  loaded : Option (Tid × Word) := none
  /-- The thread whose `settle` swapped the word last. -/
  settler : Option Tid := none
  /-- The last event first. -/
  log : List Event := []

namespace Sys

variable (x : Sys) (key : Key) (t : Tid)

def goto (p : Pc) : Sys := { x with pc := Function.update x.pc t p }

def note (e : Event) : Sys := { x with log := e :: x.log }

def setWord (w : Word) : Sys := { x with k := x.k.setWord key w }

def setOwn (l : List Key) : Sys := { x with own := Function.update x.own t l }

/-- The head of the call, over the word it loaded. -/
def call : Sys :=
  if (x.k.words key).value = done then x.note (.returned t)
  else if key ∈ x.own t then (x.goto t .inline).note (.began t)
  else x.goto t (.loop (x.k.words key))

/-- The compare-and-swap of a call that finds the word untouched; its node is listed behind it. -/
def claim (v : Word) : Sys :=
  if x.k.words key = v then
    { ((x.goto t .run).setWord key ⟨running, v.waiters⟩).setOwn t (key :: x.own t) with
      next := Function.update x.next t (x.own t) }
  else x.goto t (.loop (x.k.words key))

/-- The waiters bit, set in front of a wait. -/
def mark (v : Word) : Sys :=
  if v.waiters then x.goto t (.enter v)
  else if x.k.words key = v then (x.goto t (.enter ⟨v.value, true⟩)).setWord key ⟨v.value, true⟩
  else x.goto t (.loop (x.k.words key))

def turn (v : Word) : Sys :=
  if v.value = done then (x.goto t .out).note (.returned t)
  else if v.value = untouched then x.claim key t v
  else x.mark key t v

/-- The look of `run` at the word. -/
def look : Sys :=
  if (x.k.words key).value ≠ done then (x.goto t .func).note (.began t) else x.goto t (.settle .returned)

/-- The compare-and-swap of `settle`. -/
def swap (how : How) (v : Word) : Sys :=
  if x.k.words key = v then
    { (x.goto t (if v.waiters then .waking how else .settled how)).setWord key ⟨how.value, v.waiters⟩ with settler := some t }
  else x.goto t (.swap how (x.k.words key))

/-- The end of the call: its node is off the list, which `~Unwind` does before it settles. -/
def finish (how : How) : Sys :=
  match how with
  | .returned => ((x.goto t .out).setOwn t (x.next t)).note (.returned t)
  | .thrown => (x.goto t .out).note (.left t)
  | .inline => (x.goto t .out).note (.returned t)

/-- The rest of `kos_word_wait` over the word it loaded; the word itself may have moved since. -/
def commitWait (want v : Word) : Sys :=
  match (x.k.setWord key v).wordWait t (.ok key) want false none with
  | (k, .answered _) => { x.goto t .again with k := k.setWord key (x.k.words key), loaded := none }
  | (k, _) => { x.goto t .inside with k := k.setWord key (x.k.words key), loaded := none }

/-- The commit of `kos_word_wake` over the word it loaded. -/
def commitWake (how : How) (v : Word) : Sys :=
  match x.k.wakeAttempt (.ok key) v (2 ^ 32 - 1) 0 with
  | (k, .answered _) => { x.goto t (.settled how) with k := k, loaded := none }
  | (k, _) => { x with k := k, loaded := none }

end Sys

/-- A thread outside the kernel that may run, on this core or on another. -/
structure Ready (x : Sys) (t : Tid) : Prop where
  run : x.k.Runnable t
  outside : ∀ c v, x.loaded = some (c, v) → c ≠ t

/-- Whatever else the kernel does, by calls of the functions too: the word and who waits on it stay. -/
structure Elsewhere (key : Key) (s s' : Kernel) : Prop where
  orderly : Orderly s' [] none
  word : s'.words key = s.words key
  waiters : ∀ u, u ∈ s'.waitersOf key ↔ u ∈ s.waitersOf key
  plain : ∀ m, ¬ s'.PiOn key m
  count : s'.count = s.count

inductive Step (key : Key) : Sys → Sys → Prop where
  | call (x : Sys) (t : Tid) (hr : Ready x t) (hp : x.pc t = .out) : Step key x (x.call key t)
  | turn (x : Sys) (t : Tid) (v : Word) (hr : Ready x t) (hp : x.pc t = .loop v) : Step key x (x.turn key t v)
  | look (x : Sys) (t : Tid) (hr : Ready x t) (hp : x.pc t = .run) : Step key x (x.look key t)
  | ret (x : Sys) (t : Tid) (hr : Ready x t) (hp : x.pc t = .func) :
    Step key x ((x.goto t (.settle .returned)).note (.completed t))
  | throw (x : Sys) (t : Tid) (hr : Ready x t) (hp : x.pc t = .func) :
      Step key x (((x.goto t (.settle .thrown)).setOwn t (x.next t)).note (.threw t))
  | inlineRet (x : Sys) (t : Tid) (hr : Ready x t) (hp : x.pc t = .inline) :
      Step key x ((x.goto t (.settle .inline)).note (.completed t))
  | inlineThrow (x : Sys) (t : Tid) (hr : Ready x t) (hp : x.pc t = .inline) :
      Step key x (((x.goto t .out).note (.threw t)).note (.left t))
  | read (x : Sys) (t : Tid) (how : How) (hr : Ready x t) (hp : x.pc t = .settle how) :
      Step key x (x.goto t (.swap how (x.k.words key)))
  | swap (x : Sys) (t : Tid) (how : How) (v : Word) (hr : Ready x t) (hp : x.pc t = .swap how v) : Step key x (x.swap key t how v)
  | finish (x : Sys) (t : Tid) (how : How) (hr : Ready x t) (hp : x.pc t = .settled how) : Step key x (x.finish t how)
  | loadWake (x : Sys) (t : Tid) (how : How) (hl : x.loaded = none) (hr : Running x.k t) (hp : x.pc t = .waking how) :
      Step key x { x with loaded := some (t, x.k.words key) }
  | wake (x : Sys) (t : Tid) (how : How) (v : Word) (hl : x.loaded = some (t, v)) (hp : x.pc t = .waking how) :
      Step key x (x.commitWake key t how v)
  | loadWait (x : Sys) (t : Tid) (want : Word) (hl : x.loaded = none) (hr : Running x.k t) (hp : x.pc t = .enter want) :
      Step key x { x with loaded := some (t, x.k.words key) }
  | wait (x : Sys) (t : Tid) (want v : Word) (hl : x.loaded = some (t, v)) (hp : x.pc t = .enter want) :
      Step key x (x.commitWait key t want v)
  | resume (x : Sys) (t : Tid) (hr : Ready x t) (hp : x.pc t = .inside) : Step key x (x.goto t .again)
  | reread (x : Sys) (t : Tid) (hr : Ready x t) (hp : x.pc t = .again) : Step key x (x.goto t (.loop (x.k.words key)))
  /-- A node of another once, inside of the function or out of the call. -/
  | push (x : Sys) (t : Tid) (o : Key) (hr : Ready x t) (hp : x.pc t = .out ∨ x.pc t = .func) (ho : o ≠ key) :
      Step key x (x.setOwn t (o :: x.own t))
  | pop (x : Sys) (t : Tid) (o : Key) (l : List Key) (hr : Ready x t) (hp : x.pc t = .out ∨ x.pc t = .func) (ho : o ≠ key)
      (hl : x.own t = o :: l) : Step key x (x.setOwn t l)
  | elsewhere (x : Sys) (k : Kernel) (hl : x.loaded = none) (he : Elsewhere key x.k k) : Step key x { x with k := k }

/-- A run from a word of zeros. -/
inductive Reachable (key : Key) : Sys → Prop where
  | boot (s : Kernel) (h : Boot s) (hf : s.faulted = false) : Reachable key { k := s }
  | step (x y : Sys) (hx : Reachable key x) (h : Step key x y) : Reachable key y

/-! ### What the statements speak of -/

/-- The call has the word and has not settled it. -/
def Pc.runs : Pc → Bool
  | .run | .func | .settle .returned | .settle .thrown | .swap .returned _ | .swap .thrown _ => true
  | _ => false

def Event.isCompleted : Event → Bool
  | .completed _ => true
  | _ => false

end Once
end KickOS
