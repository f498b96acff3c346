import KickOS.Kernel.Waiters
import KickOS.Mutex.Run

/-! The counting semaphore of `user/src/sem.cc` on one word, as a transition system.

Every load and every compare-and-swap of the user side is a step of its own. A wait of the kernel is one step; a wake of
the kernel loads the word and commits later, and in between the compare-and-swap of another thread may move it. -/

namespace KickOS
namespace Sem
open Kernel Mutex

/-- `KOS_SEM_COUNT_MAX`. -/
def countMax : Nat := 2 ^ 31 - 1

/-- Where a thread is in `kos_sem_wait` and `kos_sem_post`. -/
inductive Pc where
  | out
  /-- At the head of the loop of a wait, with the word it read. -/
  | take (v : Word)
  /-- In front of `kos_word_wait`. -/
  | enter
  /-- Parked in the kernel, or on the way back. -/
  | inside
  /-- Back without a unit. -/
  | again
  /-- At the head of the loop of a post, with the word it read. -/
  | give (v : Word)
  /-- In `kos_word_wake`. -/
  | waking
  deriving DecidableEq

structure Sys where
  k : Kernel
  pc : Tid → Pc := fun _ => .out
  /-- The thread whose wake is in progress, with the word it loaded. -/
  loaded : Option (Tid × Word) := none
  /-- The posts that ended in 0. -/
  posts : Nat := 0
  /-- The waits that ended in 0. -/
  waits : Nat := 0

/-- Where `kos_sem_wait` goes on with the answer of `kos_word_wait`. -/
def waited : Answer → Pc
  | .ok n => if n = 1 then .out else .again
  | .error e => if e = .eagain then .again else .out

/-- How many units an answer of `kos_word_wait` carries. -/
def unitsOf (r : Answer) : Nat := if r = .ok 1 then 1 else 0

def Sys.goto (x : Sys) (t : Tid) (p : Pc) : Sys := { x with pc := Function.update x.pc t p }

def Sys.takeUnit (x : Sys) (key : Key) (t : Tid) (v : Word) : Sys :=
  if x.k.words key = v then
    { x.goto t .out with k := x.k.setWord key { v with value := v.value - 1 }, waits := x.waits + 1 }
  else x.goto t (.take (x.k.words key))

/-- The waiters bit, set in front of a wait. -/
def Sys.setBit (x : Sys) (key : Key) (t : Tid) (v : Word) : Sys :=
  if v.waiters then x.goto t .enter
  else if x.k.words key = v then { x.goto t .enter with k := x.k.setWord key { v with waiters := true } }
  else x.goto t (.take (x.k.words key))

/-- `kos_word_wait`, up to a park. -/
def Sys.enterWait (x : Sys) (key : Key) (t : Tid) (passed : Bool) (deadline : Option Nat) : Sys :=
  match x.k.wordWait t (.ok key) ⟨0, true⟩ passed deadline with
  | (k, .answered r) => { x.goto t (waited r) with k := k, waits := x.waits + unitsOf r }
  | (k, _) => { x.goto t .inside with k := k }

def Sys.resume (x : Sys) (t : Tid) : Sys :=
  { x.goto t (waited (x.k.thr t).waitResult) with waits := x.waits + unitsOf (x.k.thr t).waitResult }

def Sys.postUnit (x : Sys) (key : Key) (t : Tid) (v : Word) : Sys :=
  if v.value = countMax then x.goto t .out
  else if x.k.words key = v then
    { x.goto t .out with k := x.k.setWord key { v with value := v.value + 1 }, posts := x.posts + 1 }
  else x.goto t (.give (x.k.words key))

/-- The commit of `kos_word_wake` over the word it loaded. -/
def Sys.commitWake (x : Sys) (key : Key) (t : Tid) (v : Word) : Sys :=
  match x.k.wakeAttempt (.ok key) v 1 1 with
  | (k, .answered (.ok _)) => { x.goto t .out with k := k, loaded := none, posts := x.posts + 1 }
  | (k, .answered (.error _)) => { x.goto t .out with k := k, loaded := none }
  | (k, _) => { x with k := k, loaded := none }

/-- A thread outside the kernel that may run, on this core or on another. -/
structure Ready (x : Sys) (t : Tid) : Prop where
  run : x.k.Runnable t
  outside : ∀ c v, x.loaded = some (c, v) → c ≠ t

inductive Step (key : Key) : Sys → Sys → Prop where
  | callWait (x : Sys) (t : Tid) (hr : Ready x t) (hp : x.pc t = .out) : Step key x (x.goto t (.take (x.k.words key)))
  | take (x : Sys) (t : Tid) (v : Word) (hr : Ready x t) (hp : x.pc t = .take v) (hv : v.value ≠ 0) :
      Step key x (x.takeUnit key t v)
  | expired (x : Sys) (t : Tid) (v : Word) (hr : Ready x t) (hp : x.pc t = .take v) (hv : v.value = 0) :
      Step key x (x.goto t .out)
  | mark (x : Sys) (t : Tid) (v : Word) (hr : Ready x t) (hp : x.pc t = .take v) (hv : v.value = 0) :
      Step key x (x.setBit key t v)
  | wait (x : Sys) (t : Tid) (passed : Bool) (deadline : Option Nat) (hl : x.loaded = none) (hr : Running x.k t)
      (hn : (x.k.thr t).cancelKind = .none) (hp : x.pc t = .enter) : Step key x (x.enterWait key t passed deadline)
  | resume (x : Sys) (t : Tid) (hr : Ready x t) (hp : x.pc t = .inside) : Step key x (x.resume t)
  | reread (x : Sys) (t : Tid) (hr : Ready x t) (hp : x.pc t = .again) : Step key x (x.goto t (.take (x.k.words key)))
  | callPost (x : Sys) (t : Tid) (hr : Ready x t) (hp : x.pc t = .out) : Step key x (x.goto t (.give (x.k.words key)))
  | post (x : Sys) (t : Tid) (v : Word) (hr : Ready x t) (hp : x.pc t = .give v) (hv : v.waiters = false) :
      Step key x (x.postUnit key t v)
  | ask (x : Sys) (t : Tid) (v : Word) (hr : Ready x t) (hp : x.pc t = .give v) (hv : v.waiters = true) :
      Step key x (x.goto t .waking)
  | load (x : Sys) (t : Tid) (hl : x.loaded = none) (hr : Running x.k t) (hp : x.pc t = .waking) :
      Step key x { x with loaded := some (t, x.k.words key) }
  | wake (x : Sys) (t : Tid) (v : Word) (hl : x.loaded = some (t, v)) : Step key x (x.commitWake key t v)
  | timeout (x : Sys) (t : Tid) (hl : x.loaded = none) (ht : t ∈ x.k.sleepq) : Step key x { x with k := x.k.timerExpire t }
  | rotate (x : Sys) (c : Tid) (hl : x.loaded = none) (hc : Running x.k c) : Step key x { x with k := x.k.yield c }
  | pass (x : Sys) (hl : x.loaded = none) : Step key x { x with k := x.k.reschedule }

/-- A run from `kos_sem_init` with `n` units. -/
inductive Reachable (key : Key) (n : Nat) : Sys → Prop where
  | init (s : Kernel) (h : Boot s) (hf : s.faulted = false) (hn : n ≤ countMax) :
      Reachable key n { k := s.setWord key { value := n } }
  | step (x y : Sys) (hx : Reachable key n x) (h : Step key x y) : Reachable key n y

/-- A unit is with thread `t`, which has been woken with it and has not returned. -/
def Handed (x : Sys) (key : Key) (t : Tid) : Prop :=
  x.pc t = .inside ∧ t ∉ x.k.waitersOf key ∧ (x.k.thr t).waitResult = .ok 1

instance (x : Sys) (key : Key) (t : Tid) : Decidable (Handed x key t) := inferInstanceAs (Decidable (_ ∧ _ ∧ _))

/-- The units handed to waiters that have not returned. -/
def handed (x : Sys) (key : Key) : Nat := ((Finset.range x.k.count).filter (Handed x key)).card

end Sem
end KickOS
