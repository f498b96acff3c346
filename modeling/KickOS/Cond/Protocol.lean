import KickOS.Kernel.Spares
import KickOS.Mutex.Run

/-! The condition variable of `user/src/cond.cc` on one word, with its mutex on another, as a transition system.

The word holds a sequence of 31 bits, which every signal and every broadcast advances. What a run has to remember beside
it, for its statements only, is how many advances there were, and where in that count each thread read the sequence and
released the mutex. -/

namespace KickOS
namespace Cond
open Kernel Mutex

/-- Where a thread is in `wait` and `advance`. -/
inductive Pc where
  | out
  /-- In front of `kos_mutex_unlock`, with the sequence it read. -/
  | releasing (s : Nat)
  /-- At the kernel's entry of the unlock. -/
  | unlocking (s : Nat)
  /-- Behind the unlock. -/
  | released (s : Nat)
  /-- In front of `kos_word_wait`. -/
  | entering (s : Nat)
  /-- Parked in the kernel, or on the way back. -/
  | inside
  /-- In `retake`, straight at the kernel's entry or not. -/
  | retake (entry : Bool)
  /-- Parked on the mutex, or on the way back. -/
  | relocking
  /-- At the head of the loop of `advance`, with the word it read. -/
  | bump (v : Word) (all : Bool)
  /-- In `kos_word_wake`, for the advance of that number. -/
  | waking (n : Nat) (all : Bool)
  deriving DecidableEq

/-- The word a thread in the kernel attempts to change. -/
def Pc.word (key mk : Key) : Pc → Option Key
  | .out | .unlocking _ | .retake true => some mk
  | .waking _ _ => some key
  | _ => none

structure Sys where
  k : Kernel
  pc : Tid → Pc := fun _ => .out
  /-- The thread whose attempt is in progress, with the word it loaded. -/
  loaded : Option (Tid × Key × Word) := none
  /-- How often the sequence was advanced. -/
  bumps : Nat := 0
  /-- The advances a thread had seen when it last read the sequence. -/
  readNo : Tid → Nat := fun _ => 0
  /-- The advances there were when a thread last released the mutex in a wait. -/
  releaseNo : Tid → Nat := fun _ => 0
  /-- How many waits of a thread have released the mutex. -/
  releases : Tid → Nat := fun _ => 0
  /-- The numbers of the broadcasts that have returned. -/
  broadcasts : List Nat := []

def Sys.goto (x : Sys) (t : Tid) (p : Pc) : Sys := { x with pc := Function.update x.pc t p }

/-- `SEQUENCE`. -/
def sequence (v : Nat) : Nat := v % 2 ^ 31

def Sys.read (x : Sys) (key : Key) (t : Tid) : Sys :=
  { x.goto t (.releasing (x.k.words key).value) with readNo := Function.update x.readNo t x.bumps }

/-- The mutex is free of `t`. -/
def Sys.release (x : Sys) (t : Tid) (s : Nat) : Sys :=
  { x.goto t (.released s) with
    releaseNo := Function.update x.releaseNo t x.bumps
    releases := Function.update x.releases t (x.releases t + 1) }

/-- `kos_mutex_unlock` on the way into a wait. -/
def Sys.userRelease (x : Sys) (mk : Key) (t : Tid) (s : Nat) : Sys :=
  match x.k.kosMutexUnlock t mk with
  | (k, some (.ok _)) => { x.release t s with k := k }
  | (k, some (.error _)) => { x.goto t .out with k := k }
  | (k, none) => { x.goto t (.unlocking s) with k := k }

/-- The commit of the kernel's unlock on the way into a wait. -/
def Sys.commitRelease (x : Sys) (mk : Key) (t : Tid) (s : Nat) (v : Word) : Sys :=
  match x.k.unlockAttempt t (.ok mk) v with
  | (k, .answered (.ok _)) => { x.release t s with k := k, loaded := none }
  | (k, .answered (.error _)) => { x.goto t .out with k := k, loaded := none }
  | (k, _) => { x with k := k, loaded := none }

/-- The waiters bit, set in front of the wait where the sequence has not moved. -/
def Sys.mark (x : Sys) (key : Key) (t : Tid) (s : Nat) : Sys :=
  if x.k.words key = ⟨s, false⟩ then { x.goto t (.entering s) with k := x.k.setWord key ⟨s, true⟩ }
  else if x.k.words key = ⟨s, true⟩ then x.goto t (.entering s)
  else x.goto t (.retake false)

/-- Where `wait` goes on with the answer of `kos_word_wait`. -/
def waited (r : Answer) : Pc := .retake (r = .error .ecanceled)

/-- `kos_word_wait`, up to a park. -/
def Sys.enterWait (x : Sys) (key : Key) (t : Tid) (s : Nat) (passed : Bool) (deadline : Option Nat) : Sys :=
  match x.k.wordWait t (.ok key) ⟨s, true⟩ passed deadline with
  | (k, .answered r) => { x.goto t (waited r) with k := k }
  | (k, _) => { x.goto t .inside with k := k }

/-- Where `retake` goes on with an answer. -/
def retaken (r : Answer) : Pc := if r = .error .ecanceled then .retake true else .out

/-- `kos_mutex_lock` up to the kernel. -/
def Sys.userRetake (x : Sys) (mk : Key) (t : Tid) : Sys :=
  match x.k.kosMutexLock t mk with
  | (k, some r) => { x.goto t (retaken r) with k := k }
  | (k, none) => { x.goto t (.retake true) with k := k }

/-- The commit of the kernel's lock in `retake`. -/
def Sys.commitRetake (x : Sys) (mk : Key) (t : Tid) (couldHold : Tid → Bool) (v : Word) : Sys :=
  match x.k.lockAttempt t (.ok mk) couldHold v false none with
  | (k, .answered r) => { x.goto t (retaken r) with k := k, loaded := none }
  | (k, .parked) => { x.goto t .relocking with k := k, loaded := none }
  | (k, .retry) => { x with k := k, loaded := none }

/-- The compare-and-swap of `advance`; without the waiters bit it returns behind it. -/
def Sys.advance (x : Sys) (key : Key) (t : Tid) (v : Word) (all : Bool) : Sys :=
  if x.k.words key = v then
    { x.goto t (if v.waiters then .waking (x.bumps + 1) all else .out) with
      k := x.k.setWord key { v with value := sequence (v.value + 1) }
      bumps := x.bumps + 1
      broadcasts := if all ∧ v.waiters = false then (x.bumps + 1) :: x.broadcasts else x.broadcasts }
  else x.goto t (.bump (x.k.words key) all)

/-- The commit of `kos_word_wake` over the word it loaded. -/
def Sys.commitWake (x : Sys) (key : Key) (t : Tid) (v : Word) (n : Nat) (all : Bool) : Sys :=
  match x.k.wakeAttempt (.ok key) v (if all then 2 ^ 32 - 1 else 1) 0 with
  | (k, .answered _) =>
    { x.goto t .out with k := k, loaded := none, broadcasts := if all then n :: x.broadcasts else x.broadcasts }
  | (k, _) => { x with k := k, loaded := none }

/-- A thread outside the kernel that may run, on this core or on another. -/
structure Ready (x : Sys) (t : Tid) : Prop where
  run : x.k.Runnable t
  alive : (x.k.thr t).dying = false
  outside : ∀ c k v, x.loaded = some (c, k, v) → c ≠ t

inductive Step (key mk : Key) : Sys → Sys → Prop where
  | read (x : Sys) (t : Tid) (hr : Ready x t) (hp : x.pc t = .out) : Step key mk x (x.read key t)
  | userRelease (x : Sys) (t : Tid) (s : Nat) (hr : Ready x t) (hp : x.pc t = .releasing s) :
      Step key mk x (x.userRelease mk t s)
  | release (x : Sys) (t : Tid) (s : Nat) (v : Word) (hl : x.loaded = some (t, mk, v)) (hp : x.pc t = .unlocking s) :
      Step key mk x (x.commitRelease mk t s v)
  | mark (x : Sys) (t : Tid) (s : Nat) (hr : Ready x t) (hp : x.pc t = .released s) : Step key mk x (x.mark key t s)
  /-- Fewer than `2 ^ 31` advances since the sequence was read. -/
  | wait (x : Sys) (t : Tid) (s : Nat) (passed : Bool) (deadline : Option Nat) (hl : x.loaded = none) (hr : Running x.k t)
      (hn : (x.k.thr t).cancelKind = .none) (hp : x.pc t = .entering s) (hg : x.bumps < x.readNo t + 2 ^ 31) :
      Step key mk x (x.enterWait key t s passed deadline)
  | resume (x : Sys) (t : Tid) (hr : Ready x t) (hp : x.pc t = .inside) :
      Step key mk x (x.goto t (waited (x.k.thr t).waitResult))
  | userRetake (x : Sys) (t : Tid) (hr : Ready x t) (hp : x.pc t = .retake false) : Step key mk x (x.userRetake mk t)
  | retake (x : Sys) (t : Tid) (couldHold : Tid → Bool) (v : Word) (hl : x.loaded = some (t, mk, v))
      (hn : (x.k.thr t).cancelKind = .none) (hp : x.pc t = .retake true) :
      Step key mk x (x.commitRetake mk t couldHold v)
  | retaken (x : Sys) (t : Tid) (hr : Ready x t) (hp : x.pc t = .relocking) :
      Step key mk x (x.goto t (retaken (x.k.thr t).waitResult))
  | call (x : Sys) (t : Tid) (all : Bool) (hr : Ready x t) (hp : x.pc t = .out) :
      Step key mk x (x.goto t (.bump (x.k.words key) all))
  | advance (x : Sys) (t : Tid) (v : Word) (all : Bool) (hr : Ready x t) (hp : x.pc t = .bump v all) :
      Step key mk x (x.advance key t v all)
  | wake (x : Sys) (t : Tid) (v : Word) (n : Nat) (all : Bool) (hl : x.loaded = some (t, key, v))
      (hp : x.pc t = .waking n all) : Step key mk x (x.commitWake key t v n all)
  /-- The mutex outside of a wait. -/
  | userLock (x : Sys) (t : Tid) (hr : Ready x t) (hp : x.pc t = .out) :
      Step key mk x { x with k := (x.k.kosMutexLock t mk).1 }
  | userUnlock (x : Sys) (t : Tid) (hr : Ready x t) (hp : x.pc t = .out) :
      Step key mk x { x with k := (x.k.kosMutexUnlock t mk).1 }
  | lock (x : Sys) (t : Tid) (couldHold : Tid → Bool) (v : Word) (passed : Bool) (deadline : Option Nat)
      (hl : x.loaded = some (t, mk, v)) (hn : (x.k.thr t).cancelKind = .none) (hp : x.pc t = .out) :
      Step key mk x { x with k := (x.k.lockAttempt t (.ok mk) couldHold v passed deadline).1, loaded := none }
  | unlock (x : Sys) (t : Tid) (v : Word) (hl : x.loaded = some (t, mk, v)) (hp : x.pc t = .out) :
      Step key mk x { x with k := (x.k.unlockAttempt t (.ok mk) v).1, loaded := none }
  | load (x : Sys) (t : Tid) (k : Key) (hl : x.loaded = none) (hr : Running x.k t) (hd : (x.k.thr t).dying = false)
      (hp : (x.pc t).word key mk = some k) : Step key mk x { x with loaded := some (t, k, x.k.words k) }
  | timeout (x : Sys) (t : Tid) (hl : x.loaded = none) (ht : t ∈ x.k.sleepq) :
      Step key mk x { x with k := x.k.timerExpire t }
  | cancel (x : Sys) (t : Tid) (kind : CancelKind) (hl : x.loaded = none) :
      Step key mk x { x with k := x.k.threadCancelKind t kind }
  | die (x : Sys) (c : Tid) (hl : x.loaded = none) (hc : Running x.k c) :
      Step key mk x { x with k :=
        Kernel.mutexOwnerExit c (x.k.thr c).heldList.length (x.k.onThr c fun y => { y with dying := true }) }
  | finish (x : Sys) (c : Tid) (hl : x.loaded = none) (hc : Running x.k c) (hd : (x.k.thr c).dying = true)
      (hh : (x.k.thr c).heldList = []) : Step key mk x { x with k := (x.k.retire c).reschedule }
  | rotate (x : Sys) (c : Tid) (hl : x.loaded = none) (hc : Running x.k c) : Step key mk x { x with k := x.k.yield c }
  | pass (x : Sys) (hl : x.loaded = none) : Step key mk x { x with k := x.k.reschedule }

/-- A run from a cleared word and a cleared mutex. -/
inductive Reachable (key mk : Key) : Sys → Prop where
  | boot (s : Kernel) (h : Boot s) (hf : s.faulted = false) (hk : mk ≠ key) : Reachable key mk { k := s }
  | step (x y : Sys) (hx : Reachable key mk x) (h : Step key mk x y) : Reachable key mk y

/-! ### What the statements speak of -/

/-- Wait `i` of `t` has released the mutex and has not returned from the kernel. -/
def Pending (x : Sys) (t : Tid) (i : Nat) : Prop :=
  x.releases t = i ∧ ((∃ s, x.pc t = .released s) ∨ (∃ s, x.pc t = .entering s) ∨ x.pc t = .inside)

/-- Thread `t` is parked in its wait `i`. -/
def ParkedIn (x : Sys) (key : Key) (t : Tid) (i : Nat) : Prop := t ∈ x.k.waitersOf key ∧ x.releases t = i

/-- Thread `t` has left its wait `i` or will leave it without a park, whatever follows. -/
def Settled (key mk : Key) (x : Sys) (t : Tid) (i : Nat) : Prop :=
  ∀ y, Relation.ReflTransGen (Step key mk) x y → ¬ ParkedIn y key t i

end Cond
end KickOS
