import KickOS.Kernel.Words
import KickOS.Mutex.Run

/-! The pool of word records over every run of the operations on words.

The users of a word may store anything in it at any moment, and an attempt of the kernel may have loaded any value: the
records never depend on what the words hold. -/

namespace KickOS
namespace Word
open Kernel Mutex

variable {s s' : Kernel}

inductive Step : Kernel → Kernel → Prop where
  | store (s : Kernel) (k : Key) (v : Word) : Step s (s.setWord k v)
  | lock (s : Kernel) (c : Tid) (ref : Except Errno Key) (couldHold : Tid → Bool) (v : Word) (passed : Bool)
      (deadline : Option Nat) (hc : Running s c) (hn : (s.thr c).cancelKind = .none) :
      Step s (s.lockAttempt c ref couldHold v passed deadline).1
  | unlock (s : Kernel) (c : Tid) (ref : Except Errno Key) (v : Word) (hc : Running s c) :
      Step s (s.unlockAttempt c ref v).1
  | wait (s : Kernel) (c : Tid) (ref : Except Errno Key) (expected : Word) (passed : Bool) (deadline : Option Nat)
      (hc : Running s c) (hn : (s.thr c).cancelKind = .none) : Step s (s.wordWait c ref expected passed deadline).1
  | wake (s : Kernel) (c : Tid) (ref : Except Errno Key) (v : Word) (n units : Nat) (hc : Running s c) (hu : units ≤ n) :
      Step s (s.wakeAttempt ref v n units).1
  | timeout (s : Kernel) (t : Tid) (ht : t ∈ s.sleepq) : Step s (s.timerExpire t)
  | cancel (s : Kernel) (t : Tid) (kind : CancelKind) : Step s (s.threadCancelKind t kind)
  | die (s : Kernel) (c : Tid) (hc : Running s c) : Step s
      (Kernel.mutexOwnerExit c (s.thr c).heldList.length (s.onThr c fun x => { x with dying := true }))
  | finish (s : Kernel) (c : Tid) (hc : Running s c) (hd : (s.thr c).dying = true) (hh : (s.thr c).heldList = []) :
      Step s (s.retire c).reschedule
  | rotate (s : Kernel) (c : Tid) (hc : Running s c) : Step s (s.yield c)
  | pass (s : Kernel) : Step s s.reschedule

inductive Reachable : Kernel → Prop where
  | boot (s : Kernel) (h : Boot s) (hf : s.faulted = false) : Reachable s
  | step (s s' : Kernel) (hs : Reachable s) (h : Step s s') : Reachable s'

theorem Step.orderly (hs : Step s s') (h : Orderly s [] none) : Orderly s' [] none := by
  cases hs with
  | store k v => exact h.setWord
  | lock c ref couldHold v passed deadline hc hn => exact h.lockAttempt hc.runnable
  | unlock c ref v hc => exact h.unlockAttempt hc.runnable
  | wait c ref expected passed deadline hc hn => exact h.wordWait hc.runnable
  | wake c ref v n units hc hu => exact h.wakeAttempt
  | timeout t ht => exact h.timerExpire ht
  | cancel t kind => exact h.threadCancelKind
  | die c hc =>
    refine (h.mark.mutexOwnerExit (c := c) _ _ ?_ ?_).1
    · rw [Runnable, field_onThr Thread.state rfl]; exact hc.runnable
    · rw [field_onThr Thread.heldList rfl]
  | finish c hc hd hh => exact (h.retire hc.runnable).pickAndSeat
  | rotate c hc => exact h.yield hc.runnable
  | pass => exact h.pickAndSeat

theorem Reachable.orderly (h : Reachable s) : Orderly s [] none := by
  induction h with
  | boot s hb hf => exact ⟨hb.inv.placed, hb.inv.tidy.recorded, hf⟩
  | step s s' _ hs ih => exact hs.orderly ih

/-- Every active record has a waiter of its own, so a thread that runs always finds a free one, and no assertion of the
word operations is ever reached. -/
theorem record_pool (h : Reachable s) :
    (∀ m ∈ s.wordActive, (s.wrec m).waiters ≠ []) ∧
    (∀ m ∈ s.wordActive, ∀ m' ∈ s.wordActive, (s.wrec m).key = (s.wrec m').key → m = m') ∧
    (∀ t m m', t ∈ (s.wrec m).waiters → t ∈ (s.wrec m').waiters → m = m') ∧
    (s.wordActive.Nodup ∧ ∀ m, m ∈ s.wordActive ↔ (s.wrec m).kind ≠ .free) ∧
    (∀ m, (s.wrec m).kind = .pi →
      ∃ o, (s.wrec m).owner = some o ∧ (s.thr o).heldList.count m = 1 ∧ ∀ u, u ≠ o → m ∉ (s.thr u).heldList) ∧
    (∀ c, s.Runnable c → ∀ key kind owner, ∃ m, m < s.count ∧ (s.wrec m).kind = .free ∧
      (s.recordTake key kind owner).2 = m ∧ (s.recordTake key kind owner).1.faulted = false) ∧
    s.faulted = false := by
  obtain ⟨hp, hr, hf⟩ := h.orderly
  refine ⟨fun m hm => hr.waited m hm (by simp), hr.key_inj, fun t m m' h1 h2 => ?_, ⟨hr.nodup, hr.active⟩, fun m hk => ?_,
    fun c hc key kind owner => ?_, hf⟩
  · have e1 := (hp.links.listed (.record m) t h1).1
    have e2 := (hp.links.listed (.record m') t h2).1
    rw [e1] at e2
    simpa using e2
  · obtain ⟨o, ho⟩ := Option.ne_none_iff_exists'.mp (hr.owned m hk)
    refine ⟨o, ho, List.count_eq_one_of_mem (hr.held_nodup o) ((hr.held o m).mpr ⟨hk, ho⟩), fun u hu hm => ?_⟩
    have := ((hr.held u m).mp hm).2
    rw [ho] at this
    exact hu (Option.some.inj this).symm
  · obtain ⟨m, hm, hk, heq⟩ := recordTake_eq key kind owner (hr.exists_free hp hc)
    exact ⟨m, hm, hk, by rw [heq], by rw [heq]; exact hf⟩

/-- The pair of threads with the high one parked on a word the low one holds. -/
def parkedPair : Kernel :=
  ((pair.setWord 7 { value := lockIdPack 0 0 }).reschedule.lockAttempt 1 (.ok 7) (fun _ => true)
    { value := lockIdPack 0 0 } false none).1

theorem record_pool_parkedPair : parkedPair.wordActive = [0] ∧ (parkedPair.wrec 0).waiters ≠ [] ∧
    ∃ m, m < 2 ∧ (parkedPair.recordTake 9 .plain none).2 = m ∧ (parkedPair.recordTake 9 .plain none).1.faulted = false := by
  have h0 := Reachable.boot pair pair_boot rfl
  have h1 := Reachable.step _ _ h0 (.store _ 7 { value := lockIdPack 0 0 })
  have h2 := Reachable.step _ _ h1 (.pass _)
  have h3 := Reachable.step _ _ h2
    (.lock _ 1 (.ok 7) (fun _ => true) { value := lockIdPack 0 0 } false none ⟨by decide, by decide⟩ (by decide))
  obtain ⟨hw, -, -, -, -, ht, -⟩ := record_pool h3
  obtain ⟨m, hm, -, he, hf⟩ := ht 0 (.inr (by decide)) 9 .plain none
  exact ⟨by decide, hw 0 (by decide), m, hm, he, hf⟩

end Word
end KickOS
