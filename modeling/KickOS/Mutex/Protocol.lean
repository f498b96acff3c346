import KickOS.Kernel.Thread
import KickOS.Kernel.Donation

/-! The mutex protocol as a transition system: the compare-and-swaps of `user/src/mutex.cc`, the contended attempts
of the kernel, and everything that ends a wait or a holder.

An attempt of the kernel loads the word and commits later; in between the kernel lock keeps every other kernel step
out, but not the compare-and-swap of another thread. `loaded` is the load in progress. `holds` is no part of the
state: it records who took each mutex, by a result of 0 or of the owner's death, and has not released it. -/

namespace KickOS
namespace Kernel

variable (s : Kernel)

/-! ### The user side -/

/-- `kos_mutex_lock` up to its entry of the kernel, which is `none`. -/
def kosMutexLock (t : Tid) (k : Key) : Kernel × Option Answer :=
  if s.words k = {} then (s.setWord k { value := (s.thr t).lockId }, some (.ok 0))
  else if (s.words k).value = (s.thr t).lockId then (s, some (.error .edeadlk))
  else (s, none)

/-- `kos_mutex_unlock` up to its entry of the kernel, which is `none`. -/
def kosMutexUnlock (t : Tid) (k : Key) : Kernel × Option Answer :=
  if s.words k = { value := (s.thr t).lockId } then (s.setWord k {}, some (.ok 0))
  else if (s.words k).value ≠ (s.thr t).lockId then (s, some (.error .eperm))
  else (s, none)

end Kernel

namespace Mutex

/-- A system of threads, with the word an attempt in the kernel has loaded. -/
structure Sys where
  k : Kernel
  loaded : Option (Tid × Key × Word) := none
  holds : Tid → Key → Prop := fun _ _ => False

/-- A result that hands the mutex to the caller. -/
def took (r : Answer) : Prop := r = .ok 0 ∨ r = .error .eownerdead

/-- A kernel step ended the wait of `t` on word `k` by handing it the mutex. -/
def handedTo (s s' : Kernel) (t : Tid) (k : Key) : Prop :=
  ∃ m, (s.thr t).edge = .mutex m ∧ (s.wrec m).key = k ∧ (s'.thr t).edge = .none ∧ took (s'.thr t).waitResult

/-- Who holds what behind a kernel step in which `gained` was taken and `lost` released. -/
def Sys.after (x : Sys) (s' : Kernel) (gained lost : Tid → Key → Prop) : Sys where
  k := s'
  holds := fun t k => (x.holds t k ∧ ¬ lost t k) ∨ gained t k ∨ handedTo x.k s' t k

/-- `c` runs user code or its own system call. -/
structure Running (s : Kernel) (c : Tid) : Prop where
  current : s.current = some c
  state : (s.thr c).state = .running

/-- A thread whose user code may run, on this core or on another. -/
structure UserReady (x : Sys) (t : Tid) : Prop where
  run : x.k.Runnable t
  alive : (x.k.thr t).dying = false
  outside : ∀ c k v, x.loaded = some (c, k, v) → c ≠ t

/-- One step of the protocol; `couldHold` says which threads can write which words. -/
inductive Step (couldHold : Key → Tid → Bool) : Sys → Sys → Prop where
  | userLock (x : Sys) (t : Tid) (k : Key) (ht : UserReady x t) :
      Step couldHold x { x with
        k := (x.k.kosMutexLock t k).1
        holds := fun u j => x.holds u j ∨ (u = t ∧ j = k ∧ (x.k.kosMutexLock t k).2 = some (.ok 0)) }
  | userUnlock (x : Sys) (t : Tid) (k : Key) (ht : UserReady x t) :
      Step couldHold x { x with
        k := (x.k.kosMutexUnlock t k).1
        holds := fun u j => x.holds u j ∧ ¬ (u = t ∧ j = k ∧ (x.k.kosMutexUnlock t k).2 = some (.ok 0)) }
  | load (x : Sys) (c : Tid) (k : Key) (hl : x.loaded = none) (hc : Running x.k c) (hd : (x.k.thr c).dying = false) :
      Step couldHold x { x with loaded := some (c, k, x.k.words k) }
  | lock (x : Sys) (c : Tid) (k : Key) (v : Word) (passed : Bool) (deadline : Option Nat)
      (hl : x.loaded = some (c, k, v)) (hn : (x.k.thr c).cancelKind = .none) :
      Step couldHold x (x.after (x.k.lockAttempt c (.ok k) (couldHold k) v passed deadline).1
        (fun u j => u = c ∧ j = k ∧ ∃ r, took r ∧
          (x.k.lockAttempt c (.ok k) (couldHold k) v passed deadline).2 = .answered r)
        fun _ _ => False)
  | unlock (x : Sys) (c : Tid) (k : Key) (v : Word) (hl : x.loaded = some (c, k, v)) :
      Step couldHold x (x.after (x.k.unlockAttempt c (.ok k) v).1 (fun _ _ => False)
        fun u j => u = c ∧ j = k ∧ (x.k.unlockAttempt c (.ok k) v).2 = .answered (.ok 0))
  | die (x : Sys) (c : Tid) (hl : x.loaded = none) (hc : Running x.k c) :
      Step couldHold x (x.after
        (Kernel.mutexOwnerExit c (x.k.thr c).heldList.length (x.k.onThr c fun y => { y with dying := true }))
        (fun _ _ => False) fun _ _ => False)
  | finish (x : Sys) (c : Tid) (hl : x.loaded = none) (hc : Running x.k c) (hd : (x.k.thr c).dying = true)
      (hh : (x.k.thr c).heldList = []) :
      Step couldHold x (x.after (x.k.retire c).reschedule (fun _ _ => False) fun _ _ => False)
  | timeout (x : Sys) (t : Tid) (hl : x.loaded = none) (ht : t ∈ x.k.sleepq) :
      Step couldHold x (x.after (x.k.timerExpire t) (fun _ _ => False) fun _ _ => False)
  | cancel (x : Sys) (t : Tid) (kind : CancelKind) (hl : x.loaded = none) :
      Step couldHold x (x.after (x.k.threadCancelKind t kind) (fun _ _ => False) fun _ _ => False)
  | rotate (x : Sys) (c : Tid) (hl : x.loaded = none) (hc : Running x.k c) :
      Step couldHold x (x.after (x.k.yield c) (fun _ _ => False) fun _ _ => False)
  | pass (x : Sys) (hl : x.loaded = none) :
      Step couldHold x (x.after x.k.reschedule (fun _ _ => False) fun _ _ => False)

/-- Where a run starts: threads ready at their base priorities, every word 0, and nobody parked. -/
structure Boot (s : Kernel) : Prop where
  /-- `KICKOS_THREAD_SLOT_CEILING`. -/
  ceiling : s.count ≤ 254
  idle : s.current = none
  ids : ∀ t < s.count, (s.thr t).lockId = Kernel.lockIdPack (s.thr t).gen t
  state : ∀ t, (s.thr t).state = .ready ∧ t < s.count ∨ (s.thr t).state = .inactive
  prio : ∀ t, (s.thr t).prio = (s.thr t).basePrio
  ready : ∀ t p, t ∈ s.ready p ↔ (s.thr t).state = .ready ∧ (s.thr t).prio = p
  ready_nodup : ∀ p, (s.ready p).Nodup
  fresh : ∀ t, (s.thr t).dying = false ∧ (s.thr t).cancelKind = .none ∧ (s.thr t).edge = .none ∧
    (s.thr t).queue = none ∧ (s.thr t).onTimer = false ∧ (s.thr t).heldList = [] ∧ (s.thr t).replyWaiters = [] ∧
    (s.thr t).served = []
  sleepq : s.sleepq = []
  ep : ∀ e, (s.ep e).sendWaiters = [] ∧ (s.ep e).recvWaiters = []
  wrec : ∀ m, (s.wrec m).kind = .free ∧ (s.wrec m).waiters = []
  active : s.wordActive = []
  words : ∀ k, s.words k = {}

/-- A state of some run. -/
inductive Reachable (couldHold : Key → Tid → Bool) : Sys → Prop where
  | boot (s : Kernel) (h : Boot s) : Reachable couldHold { k := s }
  | step (x y : Sys) (hx : Reachable couldHold x) (h : Step couldHold x y) : Reachable couldHold y

end Mutex
end KickOS
