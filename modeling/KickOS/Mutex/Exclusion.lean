import KickOS.Mutex.Run

/-! Mutual exclusion of the mutex protocol.

While every thread can write every word, a thread that holds a mutex has its lock id in the word, so two threads that
live cannot hold one mutex. -/

namespace KickOS
namespace Mutex
open Kernel Lib.Chain Lib.Donation

variable {s s' s'' : Kernel} {t c w o u : Tid} {m : Rid} {key k : Key} {x y : Sys} {couldHold : Key → Tid → Bool}
  {H H' : Tid → Key → Prop}

/-- Who holds a mutex and lives has its id in the word. -/
def Held (s : Kernel) (H : Tid → Key → Prop) : Prop :=
  ∀ t k, H t k → (s.thr t).dying = false → s.Alive t ∧ (s.words k).value = (s.thr t).lockId

theorem Inv.bound (h : Inv s) (ht : s.Alive t) : t < s.count := by
  rcases ht with hb | hr
  · exact h.placed.links.bound t hb
  · exact h.placed.ready.bound t hr

theorem Inv.lockId_inj (h : Inv s) (ht : s.Alive t) (hu : s.Alive u) (he : (s.thr t).lockId = (s.thr u).lockId) : t = u := by
  have h1 := h.tidy.ids t (h.bound ht)
  rw [he, h.tidy.ids u (h.bound hu)] at h1
  exact (Nat.succ.inj h1).symm

theorem Inv.lockId_ne_zero (h : Inv s) (ht : s.Alive t) : (s.thr t).lockId ≠ 0 := fun he => by
  have h1 := h.tidy.ids t (h.bound ht)
  rw [he] at h1
  simp at h1

theorem Held.unique (hH : Held s H) (h : Inv s) (ht : H t k) (hu : H u k) (htd : (s.thr t).dying = false)
    (hud : (s.thr u).dying = false) : t = u := by
  obtain ⟨h1, h2⟩ := hH t k ht htd
  obtain ⟨h3, h4⟩ := hH u k hu hud
  exact h.lockId_inj h1 h3 (h2.symm.trans h4)

/-! ### Steps that release nothing -/

/-- A step that writes no value of a word, ends no thread, and ends a wait only without the mutex. -/
structure Quiet (s s' : Kernel) : Prop where
  value : ∀ k, (s'.words k).value = (s.words k).value
  lockId : ∀ t, (s'.thr t).lockId = (s.thr t).lockId
  alive : ∀ t, (s'.thr t).dying = false → s.Alive t → s'.Alive t
  dying : ∀ t, (s.thr t).dying = true → (s'.thr t).dying = true
  edge : ∀ t, (s'.thr t).edge = .none → (s.thr t).edge = .none ∨ ¬ took (s'.thr t).waitResult

theorem Quiet.refl (s : Kernel) : Quiet s s := ⟨fun _ => rfl, fun _ => rfl, fun _ _ => id, fun _ => id, fun _ => .inl⟩

theorem Quiet.calm (h : Quiet s s') (hc : Calm s' s'') : Quiet s s'' where
  value k := by rw [core_read (fun k' => (k'.words k).value) hc.core fun _ => rfl]; exact h.value k
  lockId t := by rw [core_read (fun k' => (k'.thr t).lockId) hc.core fun _ => rfl]; exact h.lockId t
  alive t hd ht := by
    refine (hc.alive t).mpr (h.alive t ?_ ht)
    by_contra hd'
    rw [hc.dying t (by simpa using hd')] at hd
    cases hd
  dying t ht := hc.dying t (h.dying t ht)
  edge t := by
    rw [edge_core hc.core, core_read (fun k' => (k'.thr t).waitResult) hc.core fun _ => rfl]
    exact h.edge t

theorem Quiet.of_calm (hc : Calm s s') : Quiet s s' := (Quiet.refl s).calm hc

theorem Quiet.not_handed (h : Quiet s s') : ¬ handedTo s s' t k := by
  rintro ⟨m, he, -, he', hr⟩
  rcases h.edge t he' with h1 | h1
  · rw [he] at h1; cases h1
  · exact h1 hr

theorem Held.quiet (hH : Held s H) (h : Quiet s s') : Held s' H := fun t k ht hd => by
  have hd' : (s.thr t).dying = false := by
    by_contra hd'
    rw [h.dying t (by simpa using hd')] at hd
    cases hd
  obtain ⟨h1, h2⟩ := hH t k ht hd'
  exact ⟨h.alive t hd h1, by rw [h.value, h.lockId]; exact h2⟩

theorem Held.after_quiet {gained lost : Tid → Key → Prop} (hH : Held x.k x.holds) (h : Quiet x.k s')
    (hg : ∀ t k, ¬ gained t k) : Held (x.after s' gained lost).k (x.after s' gained lost).holds := by
  refine fun t k ht hd => (hH.quiet h) t k ?_ hd
  rcases ht with ⟨ht, -⟩ | ht | ht
  · exact ht
  · exact absurd ht (hg t k)
  · exact absurd ht h.not_handed

/-! ### A word changes hands -/

theorem Held.setWord_free (hH : Held s H) (key : Key) (hc : s.Alive c)
    (hfree : ∀ t, H t key → (s.thr t).dying = false → False) :
    Held (s.setWord key { value := (s.thr c).lockId }) fun t k => H t k ∨ t = c ∧ k = key := by
  rintro t k (ht | ⟨rfl, rfl⟩) hd
  · obtain ⟨h1, h2⟩ := hH t k ht hd
    have hk : k ≠ key := by
      rintro rfl
      exact hfree t ht hd
    exact ⟨h1, by simpa [Kernel.setWord, hk] using h2⟩
  · exact ⟨hc, by simp [Kernel.setWord]⟩

theorem Held.setWord_release (hH : Held s H) (h : Inv s) (hc : s.Alive c) (hw : (s.words key).value = (s.thr c).lockId)
    (hH' : ∀ t k, H' t k → H t k ∧ ¬ (t = c ∧ k = key)) : Held (s.setWord key {}) H' := fun t k ht hd => by
  obtain ⟨ht, hn⟩ := hH' t k ht
  obtain ⟨h1, h2⟩ := hH t k ht hd
  have hk : k ≠ key := by
    rintro rfl
    exact hn ⟨h.lockId_inj h1 hc (h2.symm.trans hw), rfl⟩
  exact ⟨h1, by simpa [Kernel.setWord, hk] using h2⟩

theorem handedOver_words {r : Answer} : (s.handedOver c m w r).words = Function.update s.words (s.wrec m).key
    { value := (s.thr w).lockId, waiters := !((s.wrec m).waiters.erase w).isEmpty } := by
  unfold handedOver
  split_ifs <;> rfl

theorem Held.handedOver {r : Answer} (hH : Held s H) (h : Inv s) (hm : m ∈ s.wordActive)
    (ho : (s.wrec m).owner = some c) (hc : s.Alive c) (hw : w ∈ (s.wrec m).waiters)
    (hH' : ∀ t k, H' t k → (s.thr t).dying = false → H t k ∧ ¬ (t = c ∧ k = (s.wrec m).key) ∨ t = w ∧ k = (s.wrec m).key) :
    Held (s.handedOver c m w r) H' := fun t k ht hd => by
  have halive : ∀ u, (s.handedOver c m w r).Alive u ↔ s.Alive u := fun u => by
    simp only [Alive, Runnable, handedOver_state]
  rw [handedOver_dying] at hd
  rw [halive, handedOver_words, handedOver_field Thread.lockId fun _ _ _ _ _ => rfl]
  rcases hH' t k ht hd with ⟨ht, hn⟩ | ⟨rfl, rfl⟩
  · obtain ⟨h1, h2⟩ := hH t k ht hd
    have hk : k ≠ (s.wrec m).key := by
      rintro rfl
      rw [h.tidy.words m hm c ho] at h2
      exact hn ⟨h.lockId_inj h1 hc h2.symm, rfl⟩
    exact ⟨h1, by simpa [hk] using h2⟩
  · exact ⟨.inl (h.waiter_alive hw).1, by simp⟩

theorem handed_handedOver {r : Answer} (h : Inv s) (hm : m ∈ s.wordActive) (hw : w ∈ (s.wrec m).waiters)
    (ht : handedTo s (s.handedOver c m w r) t k) : t = w ∧ k = (s.wrec m).key := by
  obtain ⟨i, he, hk, he', -⟩ := ht
  by_cases htw : t = w
  · subst htw
    rw [h.tidy.recorded.edge_pi m (h.active_pi hm).1 t hw] at he
    cases he
    exact ⟨rfl, hk.symm⟩
  · rw [handedOver_edge_of_ne htw, he] at he'
    cases he'

/-! ### The steps -/

theorem Quiet.of_start {s₁ : Kernel} (h : Quiet s₁ s') (hv : ∀ k, (s₁.words k).value = (s.words k).value)
    (ht : ∀ t, (s₁.thr t).lockId = (s.thr t).lockId ∧ (s₁.thr t).state = (s.thr t).state ∧
      (s₁.thr t).dying = (s.thr t).dying ∧ (s₁.thr t).edge = (s.thr t).edge) : Quiet s s' where
  value k := (h.value k).trans (hv k)
  lockId t := (h.lockId t).trans (ht t).1
  alive t hd hs := h.alive t hd (by simpa only [Alive, Runnable, (ht t).2.1] using hs)
  dying t hd := h.dying t ((ht t).2.2.1.trans hd)
  edge t he := by rw [← (ht t).2.2.2]; exact h.edge t he

theorem quiet_park {d : Option Nat} (hp : Placed s []) (hc : s.Runnable c) :
    Quiet s ((s.deadlineArm c d).wqBlock c (.record m) (.mutex m)) := by
  have hp₁ := hp.queued (q := .record m) (e := .mutex m) (d := d) hc rfl
  have hlock : ∀ u, ((s.queued c (.record m) (.mutex m) d).thr u).lockId = (s.thr u).lockId := fun u => by
    by_cases hu : u = c
    · rw [hu, queued_self, core_read (fun k => (k.thr c).lockId) deadlineArm_core fun _ => rfl]
    · rw [queued_of_ne hu]
  rw [wqBlock_eq]
  refine Quiet.calm ⟨fun k => ?_, hlock, fun u _ ha => ?_, fun u hd => by rwa [queued_dying], fun u he => .inl ?_⟩
    hp₁.calm_pickAndSeat
  · have hw : (s.queued c (.record m) (.mutex m) d).words = s.words := by cases d <;> rfl
    rw [hw]
  · by_cases hu : u = c
    · subst hu; exact .inl (by rw [queued_self])
    · rw [Alive, Runnable, queued_of_ne hu]; exact ha
  · by_cases hu : u = c
    · subst hu; rw [queued_self] at he; cases he
    · rwa [queued_of_ne hu] at he

theorem quiet_raise {p n : Nat} : Quiet s (raiseChain p n s t) := by
  have hcore := raiseChain_core (p := p) n s t
  have hthr := raiseChain_thr (p := p) n s t
  refine ⟨fun k => ?_, fun u => ?_, fun u _ ha => ?_, fun u hd => ?_, fun u he => .inl ?_⟩
  · rw [core_read (fun k' => (k'.words k).value) hcore fun _ => rfl]
  · rw [hthr]; rfl
  · rw [Alive, Runnable, hthr]; exact ha
  · rw [hthr]; exact hd
  · rwa [hthr] at he

theorem Inv.quiet_lockPark {d : Option Nat} {r : Option Rid} (h : Inv s) (hc : s.Runnable c) :
    Quiet s (s.lockPark c key r t d) := by
  have hpark : ∀ {s : Kernel} {m : Rid}, Placed s [] → s.Runnable c →
      Quiet s (((raiseChain (s.thr c).prio (s.count + 1) s t).deadlineArm c d).wqBlock c (.record m) (.mutex m)) := by
    intro s m hp hc
    have hthr := raiseChain_thr (p := (s.thr c).prio) (s.count + 1) s t
    refine Quiet.of_start (quiet_park (hp.raiseChain _ _ _) (by rw [Runnable, hthr]; exact hc)) (quiet_raise).value
      fun u => ?_
    rw [hthr]
    exact ⟨rfl, rfl, rfl, rfl⟩
  cases r with
  | some m => exact hpark h.placed hc
  | none =>
    obtain ⟨m, hm, hk, heq⟩ := recordTake_eq key .pi (some t)
      (h.tidy.recorded.exists_free h.placed hc)
    unfold Kernel.lockPark
    simp only [heq]
    refine Quiet.of_start (hpark (s := s.taken m key .pi (some t)) (h.placed.taken (h.tidy.recorded.idle m hk)) hc)
      (fun _ => rfl) fun _ => ⟨rfl, rfl, rfl, rfl⟩

theorem Inv.quiet_abort {r : Answer} (h : Inv s) (hb : (s.thr t).state = .blocked) (hr : ¬ took r) :
    Quiet s (s.threadAbortPark t r) := by
  obtain ⟨hp, hedge, hqueue, -⟩ := h.placed.unwound (r := r) hb (by simp)
  obtain ⟨m, o, -, -, -, hun⟩ := h.unwind_eq hb
  have hwords : (s.unwound t r).words = s.words := by
    change (s.unwind t).words = s.words
    rw [hun, core_read Kernel.words (lowerChain_core _ _ _) fun _ => rfl, left_words]
  rw [threadAbortPark_eq]
  refine Quiet.calm ⟨fun k => by rw [hwords], h.unwound_field hb Thread.lockId fun _ _ _ _ _ _ => rfl, fun u _ ha => ?_,
    fun u hd => ?_, fun u he => ?_⟩ (hp.calm_wake (by simp) hedge hqueue)
  · rw [Alive, Runnable, h.unwound_field hb Thread.state fun _ _ _ _ _ _ => rfl]; exact ha
  · rw [h.unwound_field hb Thread.dying fun _ _ _ _ _ _ => rfl]; exact hd
  · by_cases hu : u = t
    · subst hu
      exact .inr (by simpa [Kernel.unwound, onThr, setThr] using hr)
    · exact .inl (by rwa [h.unwound_edge hb hu] at he)

theorem Inv.quiet_timerExpire (h : Inv s) (ht : t ∈ s.sleepq) : Quiet s (s.timerExpire t) := by
  have h1 : Inv (s.sleepqRemove t) := h.calm .sleepqRemove h.placed.sleepqRemove.1
  have hg : ∀ {α : Type} (g : Thread → α), (∀ y, g { y with onTimer := false } = g y) → ∀ u,
      g ((s.sleepqRemove t).thr u) = g (s.thr u) := fun g hg u => by
    simp only [Kernel.sleepqRemove, ht, ↓reduceIte]
    exact field_onThr (f := fun x => { x with onTimer := false }) g (hg _) u
  have hb : ((s.sleepqRemove t).thr t).state = .blocked := by
    rw [hg Thread.state fun _ => rfl]; exact h.placed.timed.blocked t ht
  refine (h1.quiet_abort hb (by simp [took])).of_start (Quiet.of_calm Calm.sleepqRemove).value fun u =>
    ⟨hg Thread.lockId (fun _ => rfl) u, hg Thread.state (fun _ => rfl) u, hg Thread.dying (fun _ => rfl) u,
      hg Thread.edge (fun _ => rfl) u⟩

theorem Inv.quiet_cancel {kind : CancelKind} (h : Inv s) : Quiet s (s.threadCancelKind t kind) := by
  have hthr : ∀ u, ((s.onThr t fun x => { x with cancelKind := kind }).thr u).lockId = (s.thr u).lockId ∧
      ((s.onThr t fun x => { x with cancelKind := kind }).thr u).state = (s.thr u).state ∧
      ((s.onThr t fun x => { x with cancelKind := kind }).thr u).dying = (s.thr u).dying ∧
      ((s.onThr t fun x => { x with cancelKind := kind }).thr u).edge = (s.thr u).edge := fun u =>
    ⟨field_onThr Thread.lockId rfl u, field_onThr Thread.state rfl u, field_onThr Thread.dying rfl u,
      field_onThr Thread.edge rfl u⟩
  unfold Kernel.threadCancelKind cancelEscalate
  dsimp only
  split_ifs with h1
  · exact .refl s
  · dsimp only
    split_ifs with h2
    · exact (Quiet.refl _).of_start (fun _ => rfl) hthr
    · push Not at h2
      exact ((h.onCancel kind).quiet_abort h2.2 (by simp [took])).of_start (fun _ => rfl) hthr

theorem Inv.quiet_retire (hd : (s.thr c).dying = true) : Quiet s (s.retire c) := by
  have hg : ∀ {α : Type} (g : Thread → α), (∀ y, g { y with state := .exited } = g y) → ∀ u,
      g ((s.retire c).thr u) = g (s.thr u) := fun g hg u =>
    field_onThr (s := s) (t := c) (f := fun y => { y with state := .exited }) g (hg _) u
  refine ⟨fun _ => rfl, hg Thread.lockId fun _ => rfl, fun u hud ha => ?_, fun u hud => ?_, fun u he => .inl ?_⟩
  · have hu : u ≠ c := by
      rintro rfl
      rw [hg Thread.dying fun _ => rfl, hd] at hud
      cases hud
    simpa [Alive, Runnable, Kernel.retire, rqRemove, onThr, setThr, hu] using ha
  · rw [hg Thread.dying fun _ => rfl]; exact hud
  · rwa [hg Thread.edge fun _ => rfl] at he

/-! ### The attempts -/

theorem Inv.ownerResolve_eq {f : Tid → Bool} (h : Inv s) (ht : s.Alive t) (hd : (s.thr t).dying = false) (hf : f t = true) :
    s.ownerResolve (s.thr t).lockId f = some t := by
  have hb := h.bound ht
  have hst : (s.thr t).state ≠ .exited ∧ (s.thr t).state ≠ .inactive := by
    rcases ht with ht | ht | ht <;> simp [ht]
  unfold ownerResolve
  rw [h.tidy.ids t hb]
  simp only [Nat.add_sub_cancel, hst.1, hst.2, hd, hf, ne_eq, not_true_eq_false, Bool.false_eq_true, Bool.true_eq_false,
    or_self, ↓reduceIte, Nat.add_one_ne_zero, false_or]
  rw [if_neg (Nat.not_lt.mpr hb)]

theorem Held.free {v : Word} {f : Tid → Bool} (hH : Held s H) (h : Inv s) (hf : ∀ t, f t = true) (hw : s.words key = v)
    (ht : target s c key v f = none) (hu : H u key) (hud : (s.thr u).dying = false) : False := by
  obtain ⟨ha, hval⟩ := hH u key hu hud
  have hrec := h.target_none ht
  have hv : v.value = (s.thr u).lockId := by rw [← hw]; exact hval
  unfold target at ht
  simp only [hrec, hv, h.lockId_ne_zero ha, h.ownerResolve_eq ha hud (hf u), ↓reduceIte] at ht
  split_ifs at ht

theorem handedTo_of_edge (he : (s'.thr t).edge = (s.thr t).edge) : ¬ handedTo s s' t k := by
  rintro ⟨m, h1, -, h2, -⟩
  rw [he, h1] at h2
  cases h2

theorem Held.lock {v : Word} {passed : Bool} {d : Option Nat} (hH : Held x.k x.holds) (h : Inv x.k)
    (hall : ∀ k t, couldHold k t = true) (hf : Fresh x.k key v) (hc : x.k.Runnable c) :
    Held (x.k.lockAttempt c (.ok key) (couldHold key) v passed d).1
      (x.after (x.k.lockAttempt c (.ok key) (couldHold key) v passed d).1
        (fun u j => u = c ∧ j = key ∧ ∃ r, took r ∧
          (x.k.lockAttempt c (.ok key) (couldHold key) v passed d).2 = .answered r) fun _ _ => False).holds := by
  have hnot : ∀ {e : Errno}, e ≠ .eownerdead → ¬ took (.error e) := fun he hr => by
    rcases hr with hr | hr <;> simp_all
  -- whatever does not take the word is quiet
  have hquiet : ∀ {s' : Kernel} {a : Attempt}, (∀ r, took r → a ≠ .answered r) → Quiet x.k s' →
      Held s' (x.after s' (fun u j => u = c ∧ j = key ∧ ∃ r, took r ∧ a = .answered r) fun _ _ => False).holds := by
    intro s' a ha hq
    exact hH.after_quiet hq fun t k ⟨_, _, r, hr, he⟩ => ha r hr he
  have hrefused : ∀ {e : Errno}, e ≠ .eownerdead → Held x.k (x.after x.k (fun u j => u = c ∧ j = key ∧
      ∃ r, took r ∧ Attempt.answered (.error e) = .answered r) fun _ _ => False).holds := fun he =>
    hquiet (fun r hr e => by cases e; exact hnot he hr) (.refl _)
  rw [h.lockAttempt_eq hf]
  cases ht : target x.k c key v (couldHold key) with
  | none =>
    dsimp only
    by_cases hw : x.k.words key = v
    · simp only [hw, ↓reduceIte]
      have hset := hH.setWord_free key (.inr hc) fun u hu hud => hH.free h (hall key) hw ht hu hud
      refine fun t k hk => hset t k ?_
      rcases hk with ⟨hk, -⟩ | ⟨h1, h2, -⟩ | hk
      · exact .inl hk
      · exact .inr ⟨h1, h2⟩
      · exact absurd hk (handedTo_of_edge rfl)
    · simp only [hw, ↓reduceIte]
      exact hquiet (by simp) (.refl _)
  | some t =>
    dsimp only
    split_ifs with h1 h2 h3 h4
    · exact hrefused (by simp)
    · exact hrefused (by simp)
    · exact hrefused (by simp)
    · refine hH.after_quiet ?_ fun _ _ ⟨_, _, _, _, hn⟩ => hn
      have hsame : ∀ k, ((x.k.setWord key { v with waiters := true }).words k).value = (x.k.words k).value := fun k => by
        by_cases hk : k = key
        · subst hk; simp [Kernel.setWord, h4]
        · simp [Kernel.setWord, hk]
      have hpark : Quiet (x.k.setWord key { v with waiters := true }) ((x.k.setWord key { v with waiters := true }).lockPark
          c key (x.k.recordFind key) t d) := by
        cases hr : x.k.recordFind key with
        | none => exact (h.setWord hr _).quiet_lockPark hc
        | some m =>
          have hv : x.k.setWord key { v with waiters := true } = x.k := by
            refine setWord_self ?_
            obtain ⟨hm, hkey⟩ := recordFind_some hr
            obtain ⟨-, o, ho⟩ := h.active_pi hm
            have := h.tidy.words m hm o ho
            rw [hkey, h4] at this
            rw [h4, this]
          rw [hv]
          exact h.quiet_lockPark hc
      exact hpark.of_start hsame fun _ => ⟨rfl, rfl, rfl, rfl⟩
    · exact hH.after_quiet (.refl _) fun _ _ ⟨_, _, _, _, hn⟩ => hn

theorem quiet_setPrio {p : Nat} : Quiet s (s.setPrio t p) := by
  refine ⟨fun k => ?_, setPrio_field Thread.lockId fun _ _ => rfl, fun u _ ha => ?_, fun u hd => ?_, fun u he => .inl ?_⟩
  · rw [core_read (fun k' => (k'.words k).value) setPrio_core fun _ => rfl]
  · rw [Alive, Runnable, setPrio_field Thread.state fun _ _ => rfl]; exact ha
  · rw [setPrio_field Thread.dying fun _ _ => rfl]; exact hd
  · rwa [setPrio_field Thread.edge fun _ _ => rfl] at he

theorem handedTo_core (hc : s''.core = s'.core) : handedTo s s'' t k ↔ handedTo s s' t k := by
  simp only [handedTo, edge_core hc, core_read (fun k' => (k'.thr t).waitResult) hc fun _ => rfl]

theorem Held.unlock {v : Word} (hH : Held x.k x.holds) (h : Inv x.k) (hc : x.k.Runnable c) :
    Held (x.k.unlockAttempt c (.ok key) v).1
      (x.after (x.k.unlockAttempt c (.ok key) v).1 (fun _ _ => False)
        fun u j => u = c ∧ j = key ∧ (x.k.unlockAttempt c (.ok key) v).2 = .answered (.ok 0)).holds := by
  have hquiet : ∀ {lost : Tid → Key → Prop}, Held x.k (x.after x.k (fun _ _ => False) lost).holds := fun {lost} =>
    hH.after_quiet (.refl _) fun _ _ => id
  unfold Kernel.unlockAttempt
  dsimp only
  cases hr : x.k.recordFind key with
  | none =>
    dsimp only
    split_ifs with h1 h2
    · exact hquiet
    · rw [not_not] at h1
      refine hH.setWord_release h (.inr hc) (by rw [h2, h1]) fun t k hk => ?_
      rcases hk with ⟨hk, hn⟩ | hk | hk
      · exact ⟨hk, fun ⟨e1, e2⟩ => hn ⟨e1, e2, rfl⟩⟩
      · exact hk.elim
      · exact absurd hk (handedTo_of_edge rfl)
    · exact hquiet
  | some m =>
    obtain ⟨hm, hkey⟩ := recordFind_some hr
    obtain ⟨hk, o, ho⟩ := h.active_pi hm
    dsimp only
    simp only [hk, ne_eq, not_true_eq_false, ↓reduceIte]
    split_ifs with hoc
    · cases hw : x.k.wqPeekHighest (x.k.wrec m).waiters with
      | none => exact absurd (wqPeekHighest_eq_none.mp hw) (h.tidy.recorded.waited m hm (by simp))
      | some w =>
        have hmem := wqPeekHighest_mem hw
        have hcw : c ≠ w := fun e => hc.ne_blocked (e ▸ (h.waiter_alive hmem).1)
        dsimp only
        rw [handOver_eq hk hw hcw]
        obtain ⟨he, hq⟩ := handedOver_edge (s := x.k) (c := c) (m := m) (w := w) (r := .ok 0)
        have hp := (h.placed.handedOver (r := .ok 0) hmem hcw).recompute (t := c)
        have hcalm := hp.calm_wake (by simp) (by rw [edge_core recompute_core]; exact he)
          (by rw [queue_core recompute_core]; exact hq)
        refine ((Held.handedOver hH h hm hoc (.inr hc) hmem fun t k hk _ => ?_).quiet quiet_setPrio).quiet (.of_calm hcalm)
        rcases hk with ⟨hk, hn⟩ | hk | hk
        · exact .inl ⟨hk, fun ⟨e1, e2⟩ => hn ⟨e1, e2.trans hkey, rfl⟩⟩
        · exact hk.elim
        · exact .inr (handed_handedOver h hm hmem ((handedTo_core (hcalm.core.trans recompute_core)).mp hk))
    · exact hquiet

/-! ### The exit of a holder -/

theorem Held.die (hH : Held s H) (h : Inv s) (hc : s.Runnable c) :
    Held (Kernel.mutexOwnerExit c (s.thr c).heldList.length (s.onThr c fun y => { y with dying := true }))
      fun t k => H t k ∨ handedTo s
        (Kernel.mutexOwnerExit c (s.thr c).heldList.length (s.onThr c fun y => { y with dying := true })) t k := by
  have h1 := h.mark hc
  have hc1 : (s.onThr c fun y => { y with dying := true }).Runnable c := by
    rw [Runnable, field_onThr Thread.state rfl]; exact hc
  have hedge1 : ∀ t, ((s.onThr c fun y => { y with dying := true }).thr t).edge = (s.thr t).edge := field_onThr Thread.edge rfl
  have hH1 : Held (s.onThr c fun y => { y with dying := true }) H := fun t k ht hd => by
    have htc : t ≠ c := by
      rintro rfl
      simp [onThr, setThr] at hd
    have hthr : (s.onThr c fun y => { y with dying := true }).thr t = s.thr t := by simp [onThr, setThr, htc]
    rw [hthr] at hd
    rw [Alive, Runnable, hthr]
    exact hH t k ht hd
  -- every wait still on is the wait it was, and who was handed a mutex since has its id in the word
  have hrun := Inv.mutexOwnerExit (c := c)
    (P := fun s' => (∀ t i, (s'.thr t).edge = .mutex i → (s.thr t).edge = .mutex i ∧ (s'.wrec i).key = (s.wrec i).key) ∧
      Held s' fun t k => H t k ∨ handedTo s s' t k) ?_ (s.thr c).heldList.length _ h1 hc1 (by simp [onThr, setThr])
    (by rw [field_onThr Thread.heldList rfl])
  · refine (hrun ⟨fun t i he => ⟨by rwa [hedge1] at he, rfl⟩, fun t k ht hd => ?_⟩).2.2.2.2.2
    rcases ht with ht | ht
    · exact hH1 t k ht hd
    · exact absurd ht (handedTo_of_edge (hedge1 t))
  · rintro s₁ m w hi hcr hcd hm hw hcw ⟨hold, hheld⟩
    obtain ⟨hk, ho⟩ := (hi.tidy.recorded.held c m).mp hm
    have hact : m ∈ s₁.wordActive := (hi.tidy.recorded.active m).mpr (by simp [hk])
    have hmem := wqPeekHighest_mem hw
    obtain ⟨he, hq⟩ := handedOver_edge (s := s₁) (c := c) (m := m) (w := w) (r := .error .eownerdead)
    have hcalm := (hi.placed.handedOver (r := .error .eownerdead) hmem hcw).calm_wake (by simp) he hq
    have hwedge := hi.tidy.recorded.edge_pi m hk w hmem
    refine ⟨fun t i het => ?_, (Held.handedOver hheld hi hact ho (.inr hcr) hmem fun t k ht htd => ?_).quiet (.of_calm hcalm)⟩
    · rw [edge_core hcalm.core] at het
      rw [core_read (fun k' => (k'.wrec i).key) hcalm.core fun _ => rfl]
      have htw : t ≠ w := by
        rintro rfl
        rw [he] at het; cases het
      rw [handedOver_edge_of_ne htw] at het
      obtain ⟨h2, h3⟩ := hold t i het
      refine ⟨h2, ?_⟩
      rw [← h3]
      by_cases him : i = m
      · subst him
        have htm : t ∈ (s₁.wrec i).waiters := by
          have hb : (s₁.thr t).state = .blocked := by
            by_contra hb
            rw [(hi.placed.links.at_rest t hb).1] at het
            cases het
          exact (hi.placed.links.parked t hb (by simp)).mem (.record i) (by rw [het]; rfl)
        have hne : (s₁.wrec i).waiters.erase w ≠ [] := List.ne_nil_of_mem ((List.mem_erase_of_ne htw).mpr htm)
        simp [Kernel.handedOver, hne, handed]
      · unfold Kernel.handedOver
        split_ifs <;> simp [handed, freed, him]
    · rcases ht with ht | ht
      · refine .inl ⟨.inl ht, ?_⟩
        rintro ⟨rfl, -⟩
        rw [hcd] at htd; cases htd
      · rw [handedTo_core hcalm.core] at ht
        by_cases htw : t = w
        · subst htw
          obtain ⟨i, h2, h3, -, -⟩ := ht
          obtain ⟨h4, h5⟩ := hold t m hwedge
          rw [h4] at h2
          cases h2
          exact .inr ⟨rfl, by rw [h5, h3]⟩
        · refine .inl ⟨.inr ?_, ?_⟩
          · obtain ⟨i, h2, h3, h4, h5⟩ := ht
            rw [handedOver_edge_of_ne htw] at h4
            have hres : ((s₁.handedOver c m w (.error .eownerdead)).thr t).waitResult = (s₁.thr t).waitResult := by
              have hh : ((s₁.handed c m w (.error .eownerdead)).thr t).waitResult = (s₁.thr t).waitResult := by
                by_cases htc : t = c
                · subst htc; simp [handed, htw]
                · simp [handed, htw, htc]
              unfold Kernel.handedOver
              split_ifs
              · exact hh
              · exact hh
            rw [hres] at h5
            exact ⟨i, h2, h3, h4, h5⟩
          · rintro ⟨rfl, -⟩
            rw [hcd] at htd; cases htd

/-! ### A run -/

theorem Reachable.held (hall : ∀ k t, couldHold k t = true) (h : Reachable couldHold x) : Held x.k x.holds := by
  induction h with
  | boot s hb => exact fun t k hk => hk.elim
  | step x y hx hs ih =>
    have hi := hx.sound.inv
    cases hs with
    | userLock t k ht =>
      intro u j hu hd
      dsimp only at hu hd ⊢
      unfold Kernel.kosMutexLock at hu hd ⊢
      split_ifs at hu hd ⊢ with h1 h2
      · have hset := ih.setWord_free (c := t) k (.inr ht.run) fun v hv hvd => by
          obtain ⟨ha, hval⟩ := ih v k hv hvd
          rw [h1] at hval
          exact hi.lockId_ne_zero ha hval.symm
        exact hset u j (hu.imp_right fun ⟨a, b, _⟩ => ⟨a, b⟩) hd
      · exact ih u j (hu.resolve_right (by simp)) hd
      · exact ih u j (hu.resolve_right (by simp)) hd
    | userUnlock t k ht =>
      intro u j hu hd
      dsimp only at hu hd ⊢
      unfold Kernel.kosMutexUnlock at hu hd ⊢
      split_ifs at hu hd ⊢ with h1 h2
      · have hset : Held (x.k.setWord k {}) fun u j =>
            x.holds u j ∧ ¬ (u = t ∧ j = k ∧ some (Except.ok 0 : Answer) = some (.ok 0)) :=
          ih.setWord_release hi (.inr ht.run) (by rw [h1]) fun v i hv => ⟨hv.1, fun ⟨a, b⟩ => hv.2 ⟨a, b, rfl⟩⟩
        exact hset u j hu hd
      · exact ih u j hu.1 hd
      · exact ih u j hu.1 hd
    | load c k hl hc hd => exact ih
    | lock c k v passed deadline hl hn =>
      obtain ⟨h1, h2, -⟩ := hx.sound.loaded c k v hl
      exact ih.lock hi hall h1 h2
    | unlock c k v hl => exact ih.unlock hi (hx.sound.loaded c k v hl).2.1
    | die c hl hc =>
      refine fun t k ht => ih.die hi hc.runnable t k ?_
      rcases ht with ⟨ht, -⟩ | ht | ht
      · exact .inl ht
      · exact ht.elim
      · exact .inr ht
    | finish c hl hc hd hh =>
      exact ih.after_quiet ((Inv.quiet_retire hd).calm (hi.retire hc.runnable).placed.calm_pickAndSeat) fun _ _ => id
    | timeout t hl ht => exact ih.after_quiet (hi.quiet_timerExpire ht) fun _ _ => id
    | cancel t kind hl => exact ih.after_quiet hi.quiet_cancel fun _ _ => id
    | rotate c hl hc =>
      have hcalm : Calm x.k (x.k.rqRotate c) := .of_thr rqRotate_core rqRotate_thr
      exact ih.after_quiet (.of_calm (hcalm.trans (hi.placed.rqRotate hc.runnable).calm_pickAndSeat)) fun _ _ => id
    | pass hl => exact ih.after_quiet (.of_calm hi.placed.calm_pickAndSeat) fun _ _ => id

/-- At most one thread that lives is between taking a mutex and releasing it, and a word somebody is parked on carries
the id of the record's owner and the waiters bit, which no release in user mode matches. -/
theorem mutex_exclusive (hall : ∀ k t, couldHold k t = true) (h : Reachable couldHold x) :
    (∀ k t u, x.holds t k → x.holds u k → x.k.Alive t → (x.k.thr t).dying = false → x.k.Alive u →
      (x.k.thr u).dying = false → t = u) ∧
    ∀ m, (x.k.wrec m).kind = .pi → (x.k.wrec m).waiters ≠ [] →
      (∃ o, (x.k.wrec m).owner = some o ∧
        x.k.words (x.k.wrec m).key = { value := (x.k.thr o).lockId, waiters := true }) ∧
      ∀ t, (x.k.kosMutexUnlock t (x.k.wrec m).key).1 = x.k ∧
        (x.k.kosMutexUnlock t (x.k.wrec m).key).2 ≠ some (.ok 0) := by
  have hi := h.sound.inv
  refine ⟨fun k t u ht hu _ htd _ hud => (h.held hall).unique hi ht hu htd hud, fun m hk _ => ?_⟩
  have hm : m ∈ x.k.wordActive := (hi.tidy.recorded.active m).mpr (by simp [hk])
  obtain ⟨-, o, ho⟩ := hi.active_pi hm
  have hw := hi.tidy.words m hm o ho
  refine ⟨⟨o, ho, hw⟩, fun t => ?_⟩
  unfold Kernel.kosMutexUnlock
  simp only [hw, Word.mk.injEq, Bool.true_eq_false, and_false, ↓reduceIte]
  split_ifs <;> simp

/-- The low thread holds the mutex the high one waits for, and cannot release it in user mode. -/
theorem mutex_exclusive_contended : contended.holds 0 7 ∧ (contended.k.wrec 0).waiters = [1] ∧
    (∀ u, contended.holds u 7 → contended.k.Alive u → (contended.k.thr u).dying = false → 0 = u) ∧
    (contended.k.kosMutexUnlock 0 (contended.k.wrec 0).key).1 = contended.k := by
  have h := mutex_exclusive (fun _ _ => rfl) contended_reachable
  have h0 : contended.holds 0 7 := .inl ⟨.inl ⟨.inr ⟨rfl, rfl, rfl⟩, id⟩, id⟩
  refine ⟨h0, by decide, fun u hu ha hd => ?_, ((h.2 0 (by decide) (by decide)).2 0).1⟩
  exact h.1 7 0 u h0 hu (.inr (.inr (by decide))) (by decide) ha hd

end Mutex
end KickOS
