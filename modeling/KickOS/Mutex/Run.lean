import KickOS.Mutex.Invariant

/-! Every run of the mutex protocol keeps the invariant. -/

namespace KickOS
namespace Mutex
open Kernel Lib.Chain Lib.Donation

variable {s s' : Kernel} {t c w o u : Tid} {m : Rid} {key : Key} {x y : Sys} {couldHold : Key → Tid → Bool}

/-! ### The steps beside the attempts -/

theorem Inv.retire (h : Inv s) (hc : s.Runnable c) : Inv (s.retire c) := by
  have hcore : (s.retire c).core = s.core := core_onThr (f := fun x => { x with state := .exited }) rfl
  have hg : ∀ {α : Type} (g : Thread → α), (∀ y, g { y with state := .exited } = g y) → ∀ u,
      g ((s.retire c).thr u) = g (s.thr u) := fun g hg u =>
    field_onThr (s := s) (t := c) (f := fun y => { y with state := .exited }) g (hg _) u
  refine ⟨h.placed.ended hc, h.tidy.of_core hcore, fun t hd => ?_, fun t hd => ?_⟩
  · rw [hg Thread.dying fun _ => rfl] at hd
    by_cases ht : t = c
    · subst ht; simp [Kernel.retire, rqRemove, onThr, setThr]
    · simpa [Kernel.retire, rqRemove, onThr, setThr, ht] using h.dying t hd
  · rw [hg Thread.dying fun _ => rfl] at hd
    rw [hg Thread.prio fun _ => rfl, effectivePrio_core hcore (hg Thread.prio fun _ => rfl)]
    exact h.exact t hd

theorem rqRotate_thr : (s.rqRotate c).thr = s.thr := by
  unfold rqRotate
  dsimp only
  split_ifs <;> rfl

theorem Inv.yield (h : Inv s) (hc : s.Runnable c) : Inv (s.yield c) :=
  (h.calm (.of_thr rqRotate_core rqRotate_thr) (h.placed.rqRotate hc)).pickAndSeat

theorem Inv.timerExpire (h : Inv s) (ht : t ∈ s.sleepq) : Inv (s.timerExpire t) := by
  have hb := h.placed.timed.blocked t ht
  have h1 : Inv (s.sleepqRemove t) := h.calm .sleepqRemove h.placed.sleepqRemove.1
  refine h1.threadAbortPark ?_
  have hst : ((s.sleepqRemove t).thr t).state = (s.thr t).state := by
    simp only [Kernel.sleepqRemove, ht, ↓reduceIte]
    exact field_onThr (f := fun x => { x with onTimer := false }) Thread.state rfl t
  rw [hst, hb]

theorem Inv.onCancel (h : Inv s) (k : CancelKind) : Inv (s.onThr t fun x => { x with cancelKind := k }) := by
  have hg : ∀ {α : Type} (g : Thread → α), (∀ y, g { y with cancelKind := k } = g y) → ∀ u,
      g ((s.onThr t fun x => { x with cancelKind := k }).thr u) = g (s.thr u) := fun g hg u => field_onThr g (hg _) u
  have hedge := hg Thread.edge fun _ => rfl
  have hholder : (s.onThr t fun x => { x with cancelKind := k }).holder = s.holder := by
    funext u
    simp only [holder, waitMutex, hedge]
    rfl
  refine ⟨h.placed.onThr rfl, ⟨h.tidy.recorded.same rfl rfl rfl (hg Thread.heldList fun _ => rfl) fun _ u _ => hedge u,
    h.tidy.kinds, fun u => ?_, fun u => ?_, fun u hu => ?_, fun m hm o ho => ?_, ?_⟩, fun u hd => ?_, fun u hd => ?_⟩
  · rw [hedge]; exact h.tidy.edges u
  · rw [hg Thread.replyWaiters fun _ => rfl, hg Thread.served fun _ => rfl]; exact h.tidy.quiet u
  · rw [hg Thread.lockId fun _ => rfl]; exact h.tidy.ids u hu
  · rw [hg Thread.lockId fun _ => rfl]; exact h.tidy.words m hm o ho
  · rw [hholder]; exact h.tidy.acyclic
  · rw [hg Thread.dying fun _ => rfl] at hd
    rw [hg Thread.state fun _ => rfl]; exact h.dying u hd
  · rw [hg Thread.dying fun _ => rfl] at hd
    have heff : (s.onThr t fun x => { x with cancelKind := k }).effectivePrio u = s.effectivePrio u := by
      refine effectivePrio_congr (hg Thread.basePrio (fun _ => rfl) u) (fun x => ?_) fun x _ =>
        hg Thread.prio (fun _ => rfl) x
      simp only [Donor, hg Thread.heldList fun _ => rfl, hg Thread.replyWaiters fun _ => rfl, hg Thread.served fun _ => rfl,
        hg Thread.callState fun _ => rfl]
      rfl
    rw [heff, hg Thread.prio fun _ => rfl]; exact h.exact u hd

theorem Inv.threadCancelKind {k : CancelKind} (h : Inv s) : Inv (s.threadCancelKind t k) := by
  unfold Kernel.threadCancelKind cancelEscalate
  dsimp only
  split_ifs with h1
  · exact h
  · dsimp only
    split_ifs with h2
    · exact h.onCancel k
    · push Not at h2
      exact (h.onCancel k).threadAbortPark h2.2

theorem Inv.no_record {v : Word} (h : Inv s) (hw : s.words key = v) (hv : v.waiters = false) : s.recordFind key = none := by
  cases hr : s.recordFind key with
  | none => rfl
  | some m =>
    obtain ⟨hm, hkey⟩ := recordFind_some hr
    obtain ⟨-, o, ho⟩ := h.active_pi hm
    have := h.tidy.words m hm o ho
    rw [hkey, hw] at this
    rw [this] at hv; cases hv

theorem Inv.kosMutexLock (h : Inv s) : Inv (s.kosMutexLock t key).1 := by
  unfold Kernel.kosMutexLock
  split_ifs with h1
  · exact h.setWord (h.no_record h1 rfl) _
  · exact h
  · exact h

theorem Inv.kosMutexUnlock (h : Inv s) : Inv (s.kosMutexUnlock t key).1 := by
  unfold Kernel.kosMutexUnlock
  split_ifs with h1
  · exact h.setWord (h.no_record h1 rfl) _
  · exact h
  · exact h

/-! ### Boot -/

theorem lockIdPack_slot {gen slot : Nat} (h : slot < 255) : lockIdPack gen slot % 2 ^ lockIdSlotBits = slot + 1 := by
  rw [lockIdPack, Nat.mul_add_mod_of_lt]
  simp only [lockIdSlotBits]
  omega

theorem Boot.inv (h : Boot s) : Inv s := by
  have hrun : ∀ t, s.Runnable t ↔ (s.thr t).state = .ready := fun t => by
    rcases h.state t with ⟨hs, -⟩ | hs <;> simp [Runnable, hs]
  have hnb : ∀ t, (s.thr t).state ≠ .blocked := fun t => by
    rcases h.state t with ⟨hs, -⟩ | hs <;> simp [hs]
  have hlist : ∀ pl, s.listOf pl = [] := fun pl => by
    cases pl with
    | send e => exact (h.ep e).1
    | recv e => exact (h.ep e).2
    | record m => exact (h.wrec m).2
    | reply r => exact (h.fresh r).2.2.2.2.2.2.1
  have hholder : s.holder = fun _ => none := by
    funext t
    simp [holder, waitMutex, (h.fresh t).2.2.1]
  have hp : Placed s [] := by
    refine ⟨⟨fun t p => by rw [h.ready, hrun], h.ready_nodup, fun t ht => ?_⟩, ⟨fun t => ?_, ?_, fun t ht => ?_⟩,
      fun t _ => ⟨(h.fresh t).2.2.1, (h.fresh t).2.2.2.1⟩, fun t ht => absurd ht (hnb t),
      fun t ht => (List.not_mem_nil ht).elim, fun pl t ht => ?_, fun pl => ?_, fun t ht => absurd ht (hnb t)⟩
    · rcases h.state t with ⟨-, hb⟩ | hs
      · exact hb
      · simp [hrun, hs] at ht
    · simp [h.sleepq, (h.fresh t).2.2.2.2.1]
    · rw [h.sleepq]; exact List.nodup_nil
    · rw [h.sleepq] at ht; cases ht
    · rw [hlist] at ht; cases ht
    · rw [hlist]; exact List.nodup_nil
  have ht : Tidy s none := by
    refine ⟨⟨fun m => ?_, fun m hm => ?_, ?_, fun m hm => ?_, fun m _ => (h.wrec m).2, fun m hm => ?_, fun m hm => ?_,
      fun o m => ?_, fun o => ?_, fun m hm => ?_, fun m hm => ?_⟩, fun m => ?_, fun t => .inl (h.fresh t).2.2.1,
      fun t => (h.fresh t).2.2.2.2.2.2, fun t ht => ?_, fun m hm => ?_, ?_⟩
    · simp [h.active, (h.wrec m).1]
    · rw [h.active] at hm; cases hm
    · rw [h.active]; exact List.nodup_nil
    · rw [h.active] at hm; cases hm
    · rw [h.active] at hm; cases hm
    · rw [(h.wrec m).1] at hm; cases hm
    · simp [(h.fresh o).2.2.2.2.2.1, (h.wrec m).1]
    · rw [(h.fresh o).2.2.2.2.2.1]; exact List.nodup_nil
    · rw [(h.wrec m).1] at hm; cases hm
    · rw [(h.wrec m).1] at hm; cases hm
    · simp [(h.wrec m).1]
    · rw [h.ids t ht]
      have := h.ceiling
      exact lockIdPack_slot (by omega)
    · rw [h.active] at hm; cases hm
    · rw [hholder]
      intro a ha
      obtain ⟨b, hab, -⟩ := Relation.TransGen.head'_iff.mp ha
      cases hab
  refine ⟨hp, ht, fun t hd => ?_, fun t _ => ?_⟩
  · rw [(h.fresh t).1] at hd; cases hd
  · rw [ht.exact_iff hp, next_nil, hholder]
    intro n
    simp [Owed, h.prio]

/-! ### A run -/

/-- What a run keeps: a load in progress is as good as new, and its thread is still in the kernel. -/
structure Sound (x : Sys) : Prop where
  inv : Inv x.k
  loaded : ∀ c k v, x.loaded = some (c, k, v) → Fresh x.k k v ∧ x.k.Runnable c ∧ (x.k.thr c).dying = false

theorem Running.runnable (h : Running s c) : s.Runnable c := .inr h.state

theorem Fresh.setWord {k : Key} {v w n : Word} (h : Inv s) (hf : Fresh s key v) (hw : s.words k = w) (hv : w.waiters = false) :
    Fresh (s.setWord k n) key v := by
  have hne : ∀ {j : Key}, j ≠ k → (s.setWord k n).words j = s.words j := fun hj => by simp [Kernel.setWord, hj]
  refine ⟨fun hr => ?_, fun hvw => ?_⟩
  · have hk : key ≠ k := by
      rintro rfl
      exact hr (h.no_record hw hv)
    rw [hne hk]; exact hf.recorded hr
  · have hk : key ≠ k := by
      rintro rfl
      rw [← hf.waited hvw, hw, hv] at hvw
      cases hvw
    rw [hne hk]; exact hf.waited hvw

theorem kosMutexLock_thr : (s.kosMutexLock t key).1.thr = s.thr := by
  unfold Kernel.kosMutexLock
  split_ifs <;> rfl

theorem kosMutexUnlock_thr : (s.kosMutexUnlock t key).1.thr = s.thr := by
  unfold Kernel.kosMutexUnlock
  split_ifs <;> rfl

theorem Fresh.kosMutexLock {k : Key} {v : Word} (h : Inv s) (hf : Fresh s key v) : Fresh (s.kosMutexLock t k).1 key v := by
  unfold Kernel.kosMutexLock
  split_ifs with h1
  · exact hf.setWord h h1 rfl
  · exact hf
  · exact hf

theorem Fresh.kosMutexUnlock {k : Key} {v : Word} (h : Inv s) (hf : Fresh s key v) : Fresh (s.kosMutexUnlock t k).1 key v := by
  unfold Kernel.kosMutexUnlock
  split_ifs with h1
  · exact hf.setWord h h1 rfl
  · exact hf
  · exact hf

theorem Sound.after {gained lost : Tid → Key → Prop} (h : Inv s') : Sound (x.after s' gained lost) :=
  ⟨h, fun _ _ _ hl => by cases hl⟩

theorem Inv.die (h : Inv s) (hc : s.Runnable c) :
    Inv (Kernel.mutexOwnerExit c (s.thr c).heldList.length (s.onThr c fun y => { y with dying := true })) := by
  have h1 := h.mark hc
  have hc1 : (s.onThr c fun y => { y with dying := true }).Runnable c := by
    rw [Runnable, field_onThr Thread.state rfl]; exact hc
  refine (Inv.mutexOwnerExit (P := fun _ => True) (fun _ _ _ _ _ _ _ _ _ _ => trivial) _ _ h1 hc1 ?_ ?_ trivial).1
  · simp [onThr, setThr]
  · rw [field_onThr Thread.heldList rfl]

theorem Sound.step (h : Sound x) (hs : Step couldHold x y) : Sound y := by
  cases hs with
  | userLock t k ht =>
    refine ⟨h.inv.kosMutexLock, fun c j v hl => ?_⟩
    obtain ⟨h1, h2, h3⟩ := h.loaded c j v hl
    exact ⟨h1.kosMutexLock h.inv, by rwa [Runnable, kosMutexLock_thr], by rwa [kosMutexLock_thr]⟩
  | userUnlock t k ht =>
    refine ⟨h.inv.kosMutexUnlock, fun c j v hl => ?_⟩
    obtain ⟨h1, h2, h3⟩ := h.loaded c j v hl
    exact ⟨h1.kosMutexUnlock h.inv, by rwa [Runnable, kosMutexUnlock_thr], by rwa [kosMutexUnlock_thr]⟩
  | load c k hl hc hd =>
    refine ⟨h.inv, fun c' j v hl' => ?_⟩
    cases hl'
    exact ⟨⟨fun _ => rfl, fun _ => rfl⟩, hc.runnable, hd⟩
  | lock c k v passed deadline hl hn =>
    obtain ⟨h1, h2, h3⟩ := h.loaded c k v hl
    exact .after (h.inv.lockAttempt h1 h2 h3)
  | unlock c k v hl => exact .after (h.inv.unlockAttempt (h.loaded c k v hl).2.1)
  | die c hl hc => exact .after (h.inv.die hc.runnable)
  | finish c hl hc hd hh => exact .after (h.inv.retire hc.runnable).pickAndSeat
  | timeout t hl ht => exact .after (h.inv.timerExpire ht)
  | cancel t kind hl => exact .after h.inv.threadCancelKind
  | rotate c hl hc => exact .after (h.inv.yield hc.runnable)
  | pass hl => exact .after h.inv.pickAndSeat

theorem Reachable.sound (h : Reachable couldHold x) : Sound x := by
  induction h with
  | boot s hb => exact ⟨hb.inv, fun _ _ _ hl => by cases hl⟩
  | step x y _ hs ih => exact ih.step hs

/-! ### Two threads -/

/-- A low thread and a high one at boot. -/
def pair : Kernel where
  count := 2
  thr := fun t => match t with
    | 0 => { state := .ready, prio := 1, basePrio := 1, lockId := lockIdPack 0 0 }
    | 1 => { state := .ready, prio := 2, basePrio := 2, lockId := lockIdPack 0 1 }
    | _ => {}
  ready := fun p => if p = 1 then [0] else if p = 2 then [1] else []

theorem pair_boot : Boot pair := by
  refine ⟨by decide, rfl, fun t ht => ?_, fun t => ?_, fun t => ?_, fun t p => ?_, fun p => ?_, fun t => ?_, rfl,
    fun _ => ⟨rfl, rfl⟩, fun _ => ⟨rfl, rfl⟩, rfl, fun _ => rfl⟩
  · have ht' : t = 0 ∨ t = 1 := by simp only [pair] at ht; omega
    rcases ht' with rfl | rfl <;> rfl
  · rcases t with _ | _ | t
    · exact .inl ⟨rfl, by decide⟩
    · exact .inl ⟨rfl, by decide⟩
    · exact .inr rfl
  · rcases t with _ | _ | t <;> rfl
  · simp only [pair]
    rcases t with _ | _ | t <;> split_ifs <;> simp_all <;> omega
  · simp only [pair]
    split_ifs <;> simp
  · rcases t with _ | _ | t <;> exact ⟨rfl, rfl, rfl, rfl, rfl, rfl, rfl, rfl⟩

/-- The low thread has taken the mutex and the high one has parked behind it. -/
def contended : Sys :=
  let x : Sys := { k := pair }
  let x : Sys := { x with
    k := (x.k.kosMutexLock 0 7).1
    holds := fun u j => x.holds u j ∨ (u = 0 ∧ j = 7 ∧ (x.k.kosMutexLock 0 7).2 = some (.ok 0)) }
  let x : Sys := x.after x.k.reschedule (fun _ _ => False) fun _ _ => False
  let x : Sys := { x with loaded := some (1, 7, x.k.words 7) }
  x.after (x.k.lockAttempt 1 (.ok 7) (fun _ => true) (x.k.words 7) false none).1
    (fun u j => u = 1 ∧ j = 7 ∧ ∃ r, took r ∧
      (x.k.lockAttempt 1 (.ok 7) (fun _ => true) (x.k.words 7) false none).2 = .answered r) fun _ _ => False

theorem contended_reachable : Reachable (fun _ _ => true) contended := by
  have h0 : Reachable (fun _ _ => true) { k := pair } := .boot pair pair_boot
  have h1 := Reachable.step _ _ h0 (.userLock _ 0 7 ⟨.inl rfl, rfl, fun _ _ _ hl => by cases hl⟩)
  have h2 := Reachable.step _ _ h1 (.pass _ rfl)
  have h3 := Reachable.step _ _ h2 (.load _ 1 7 rfl ⟨by decide, by decide⟩ (by decide))
  exact .step _ _ h3 (.lock _ 1 7 _ false none rfl (by decide))

end Mutex
end KickOS
