import KickOS.Notify.Model

/-! A thread sleeps through a bit it accepts in one case only: its receive raised the bit itself, as the readiness watch
of its own task, between the test of what is pending and the park. -/

namespace KickOS.Notify

/-- The thread is parked, and a bit that it accepts is pending. -/
def Notification.Asleep (n : Notification) (c : Tid) : Prop := (n.phase c).parked = true ∧ n.bound = some c ∧
    n.pending &&& n.accept ≠ 0

def Notification.Awake (c : Tid) (n : Notification) : Prop := ¬ n.Asleep c

/-- A thread that is in no wait accepts nothing. -/
def Notification.Idle (n : Notification) : Prop := ∀ c, n.phase c = .away → n.bound = some c → n.accept = 0

/-- The step is a receive of the thread that raises a bit of its own mask, as the readiness watch of its task, and finds
no message. -/
def Op.OwnWatch (n : Notification) (c : Tid) (o : Op) : Prop :=
  ∃ mask b, o = .receive c mask (some b) true ∧ n.phase c = .away ∧ n.bound = some c ∧ mask.getLsbD b = true ∧
    n.pending &&& mask = 0

theorem Phase.off_away {p : Phase} {delivered : Bool} (h : p.off delivered = .away) : p = .away := by
  cases p with
  | away => rfl
  | waiting _ => cases h
  | resumed _ _ => cases h
  | receiving _ => cases h
  | received _ => cases h

theorem Phase.off_parked (p : Phase) (delivered : Bool) : (p.off delivered).parked = false := by cases p <;> rfl

namespace Notification

variable {n : Notification} {c d : Tid} {b : Fin 32} {mask : BitVec 32}

theorem setPhase_self (c : Tid) (p : Phase) : (n.setPhase c p).phase c = p := Function.update_self ..

theorem setPhase_of_ne (h : d ≠ c) (p : Phase) : (n.setPhase c p).phase d = n.phase d := Function.update_of_ne h ..

theorem awake_of_accept (h : n.accept = 0) : n.Awake c := fun hs => hs.2.2 (by simp [h])

theorem awake_of_bound (h : n.bound ≠ some c) : n.Awake c := fun hs => h hs.2.1

theorem awake_setPhase {p : Phase} (hp : c = d → p.parked = false) (h : n.Awake c) : (n.setPhase d p).Awake c := by
  rintro ⟨hparked, hbound, hmeets⟩
  by_cases hcd : c = d
  · rw [hcd, setPhase_self, hp hcd] at hparked
    cases hparked
  · rw [setPhase_of_ne hcd] at hparked
    exact h ⟨hparked, hbound, hmeets⟩

theorem awake_takePending (h : n.Awake c) : (n.takePending mask).Awake c := by
  rintro ⟨hparked, hbound, hmeets⟩
  refine h ⟨hparked, hbound, fun hzero => hmeets ?_⟩
  change n.pending &&& ~~~(n.pending &&& mask) &&& n.accept = 0
  rw [BitVec.and_assoc, BitVec.and_comm _ n.accept, ← BitVec.and_assoc, hzero]
  simp

theorem awake_waitLeave (h : n.Awake c) : (n.waitLeave d mask).Awake c :=
  iteInduction (fun _ => awake_of_accept rfl) fun _ => h

theorem awake_unbind (h : n.Awake c) : (n.unbind d).Awake c :=
  iteInduction (fun _ => awake_of_accept rfl) fun _ => h

theorem latch_and (h : mask.getLsbD b = false) : (n.latch b).pending &&& mask = n.pending &&& mask := by
  apply BitVec.eq_of_getLsbD_eq
  intro i hi
  simp only [latch, BitVec.getLsbD_and, BitVec.getLsbD_or, BitVec.getLsbD_twoPow]
  by_cases hib : (b : Nat) = i
  · rw [← hib, h]
    simp
  · simp [hib]

theorem latch_meets (h : n.pending &&& mask = 0) : (n.latch b).pending &&& mask ≠ 0 ↔ mask.getLsbD b = true := by
  constructor
  · intro hmeets
    by_contra hm
    exact hmeets ((latch_and ((Bool.not_eq_true _).mp hm)).trans h)
  · intro hm hzero
    have hb := congrArg (fun x : BitVec 32 => x.getLsbD b) hzero
    simp only [latch, BitVec.getLsbD_and, BitVec.getLsbD_or, BitVec.getLsbD_twoPow, hm] at hb
    simp at hb

theorem raise_fields : (n.raise b).bound = n.bound ∧ (n.raise b).accept = n.accept ∧ (n.raise b).pending = (n.latch b).pending ∧
    ((n.raise b).phase c = .away → n.phase c = .away) := by
  unfold raise
  split
  · exact ⟨rfl, rfl, rfl, id⟩
  next t _ =>
    split
    · exact ⟨rfl, rfl, rfl, id⟩
    · refine ⟨rfl, rfl, rfl, fun hc => ?_⟩
      by_cases hct : c = t
      · rw [hct, setPhase_self] at hc
        exact hct ▸ Phase.off_away hc
      · rwa [setPhase_of_ne hct] at hc

theorem awake_raise (h : n.Awake c) : (n.raise b).Awake c := by
  unfold raise
  split
  next hbound => exact awake_of_bound fun hb => by cases hbound.symm.trans hb
  next t hbound =>
    split
    next hrefused =>
      rintro ⟨hparked, hbound, hmeets⟩
      exact h ⟨hparked, hbound, fun hzero => hmeets ((latch_and hrefused).trans hzero)⟩
    · by_cases hct : c = t
      · rintro ⟨hparked, -⟩
        rw [hct, setPhase_self, Phase.off_parked] at hparked
        cases hparked
      · exact awake_of_bound fun hb => hct (Option.some.inj (hb.symm.trans hbound))

theorem watched_fields (c : Tid) (mask : BitVec 32) (watch : Option (Fin 32)) :
    (watch.elim n n.raise).bound = n.bound ∧ (watch.elim n n.raise).accept = n.accept ∧
      (n.Awake c → (watch.elim n n.raise).Awake c) ∧
    (n.pending &&& mask = 0 → ((watch.elim n n.raise).pending &&& mask ≠ 0 ↔ ∃ b, watch = some b ∧ mask.getLsbD b = true)) := by
  cases watch with
  | none => exact ⟨rfl, rfl, id, fun hzero => iff_of_false (not_not.mpr hzero) (by simp)⟩
  | some b =>
    obtain ⟨hbound, haccept, hpending, -⟩ := raise_fields (n := n) (b := b) (c := c)
    refine ⟨hbound, haccept, awake_raise, fun hzero => ?_⟩
    rw [Option.elim_some, hpending, latch_meets hzero]
    simp

/-- A receive puts a thread to sleep on an accepted bit exactly where it raised the bit itself. -/
theorem asleep_receive (hidle : n.Idle) (h : n.Awake c) (hd : n.phase d = .away) (watch : Option (Fin 32)) (parks : Bool) :
    (n.receive d mask watch parks).Asleep c ↔ (Op.receive d mask watch parks).OwnWatch n c := by
  unfold receive waitEnter
  by_cases hopen : n.bound = some d ∧ mask ≠ 0
  · simp only [if_pos hopen]
    obtain ⟨hbound, haccept, -, hmeets⟩ := watched_fields (n := n.setAccept mask) c mask watch
    generalize watch.elim (n.setAccept mask) (n.setAccept mask).raise = r at hbound haccept hmeets
    have hleft : ∀ m : Notification, m.bound = some d → (m.waitLeave d mask).Awake c :=
      fun m hm => awake_of_accept (by rw [waitLeave, if_pos hm]; rfl)
    split
    next hnow =>
      refine iff_of_false (hleft _ hopen.1) ?_
      rintro ⟨m, b, heq, -, -, -, hzero⟩
      cases heq
      exact hnow hzero
    next hzero =>
      have hmeets := hmeets (not_not.mp hzero)
      split
      next hparks =>
        by_cases hcd : c = d
        · have hasleep : (r.setPhase d (.receiving mask)).Asleep c ↔ r.pending &&& mask ≠ 0 := by
            rw [hcd, Asleep, setPhase_self, show (r.setPhase d (.receiving mask)).accept = mask from haccept]
            exact ⟨fun hs => hs.2.2, fun hm => ⟨rfl, hbound.trans hopen.1, hm⟩⟩
          rw [hasleep, hmeets, hparks, ← hcd]
          constructor
          · rintro ⟨b, rfl, hb⟩
            exact ⟨mask, b, rfl, hcd ▸ hd, hcd ▸ hopen.1, hb, not_not.mp hzero⟩
          · rintro ⟨m, b, heq, -, -, hb, -⟩
            cases heq
            exact ⟨b, rfl, hb⟩
        · refine iff_of_false (awake_of_bound fun hb => hcd (Option.some.inj (hb.symm.trans (hbound.trans hopen.1)))) ?_
          rintro ⟨m, b, heq, -⟩
          cases heq
          exact hcd rfl
      next hparks =>
        refine iff_of_false (hleft r (hbound.trans hopen.1)) ?_
        rintro ⟨m, b, heq, -⟩
        cases heq
        exact hparks rfl
  · simp only [if_neg hopen]
    rw [if_neg (by simp)]
    obtain ⟨hbound, haccept, hasleep, -⟩ := watched_fields (n := n) c mask watch
    refine iff_of_false ?_ ?_
    · split
      · by_cases hown : n.bound = some d
        · exact awake_of_accept (haccept.trans (hidle d hd hown))
        · by_cases hcd : c = d
          · exact awake_of_bound fun hb => hown (hbound.symm.trans (hcd ▸ hb))
          · exact awake_setPhase (fun heq => absurd heq hcd) (hasleep h)
      · exact awake_waitLeave (hasleep h)
    · rintro ⟨m, b, heq, -, hown, hm, -⟩
      cases heq
      exact hopen ⟨hown, fun hzero => by simp [hzero] at hm⟩

theorem awake_step (h : n.Awake c) {o : Op} (ho : ∀ d mask watch parks, o ≠ .receive d mask watch parks) :
    (n.step o).Awake c := by
  cases o with
  | raise b => exact awake_raise h
  | bind d => exact iteInduction (fun _ => iteInduction (fun _ => awake_of_accept rfl) fun _ => h) fun _ => h
  | unbind d => exact iteInduction (fun _ => awake_unbind h) fun _ => h
  | wait d mask =>
    refine iteInduction (fun _ => iteInduction (fun _ => h) fun _ => ?_) fun _ => h
    exact iteInduction (fun _ => awake_takePending h) fun hzero hs => hzero hs.2.2
  | receive d mask watch parks => exact absurd rfl (ho d mask watch parks)
  | resume d =>
    simp only [step]
    split
    · exact iteInduction (fun _ => awake_of_accept rfl) fun _ => awake_of_accept rfl
    · exact awake_setPhase (fun _ => rfl) (awake_waitLeave h)
    · exact h
  | ends d => exact awake_setPhase (fun _ => Phase.off_parked _ _) h
  | exit d => exact iteInduction (fun _ => h) fun _ => awake_setPhase (fun _ => rfl) (awake_unbind h)

theorem idle_of_accept (h : n.accept = 0) : n.Idle := fun _ _ _ => h

theorem idle_of_bound (hbound : n.bound = some d) (hd : n.phase d ≠ .away) : n.Idle :=
  fun _ hc hb => absurd (Option.some.inj (hb.symm.trans hbound) ▸ hc) hd

theorem Idle.setPhase {p : Phase} (h : n.Idle) (hp : p = .away → n.bound = some d → n.accept = 0) : (n.setPhase d p).Idle := by
  intro c hc hb
  by_cases hcd : c = d
  · rw [hcd, setPhase_self] at hc
    exact hp hc (hcd ▸ hb)
  · rw [setPhase_of_ne hcd] at hc
    exact h c hc hb

theorem Idle.raise (h : n.Idle) : (n.raise b).Idle := by
  intro c hc hb
  obtain ⟨hbound, haccept, -, hphase⟩ := raise_fields (n := n) (b := b) (c := c)
  exact haccept.trans (h c (hphase hc) (hbound.symm.trans hb))

theorem Idle.waitLeave (h : n.Idle) : (n.waitLeave d mask).Idle := iteInduction (fun _ => idle_of_accept rfl) fun _ => h

theorem Idle.receive (h : n.Idle) (watch : Option (Fin 32)) (parks : Bool) : (n.receive d mask watch parks).Idle := by
  unfold Notification.receive waitEnter
  by_cases hopen : n.bound = some d ∧ mask ≠ 0
  · simp only [if_pos hopen]
    have hbound := (watched_fields (n := n.setAccept mask) d mask watch).1
    have hleft : ∀ m : Notification, m.bound = some d → (m.waitLeave d mask).Idle :=
      fun m hm => idle_of_accept (by rw [Notification.waitLeave, if_pos hm]; rfl)
    refine iteInduction (fun _ => hleft _ hopen.1) fun _ => iteInduction (fun _ => ?_) fun _ => hleft _ (hbound.trans hopen.1)
    refine idle_of_bound (hbound.trans hopen.1) ?_
    rw [setPhase_self]
    exact fun hc => by cases hc
  · simp only [if_neg hopen]
    have hr : (watch.elim n n.raise).Idle := by
      cases watch with
      | none => exact h
      | some b => exact h.raise
    exact iteInduction (fun _ => h.waitLeave) fun _ => iteInduction (fun _ => hr.setPhase fun hc => by cases hc)
      fun _ => hr.waitLeave

theorem Idle.step (h : n.Idle) (o : Op) : (n.step o).Idle := by
  cases o with
  | raise b => exact h.raise
  | bind c => exact iteInduction (fun _ => iteInduction (fun _ => idle_of_accept rfl) fun _ => h) fun _ => h
  | unbind c => exact iteInduction (fun _ => iteInduction (fun _ => idle_of_accept rfl) fun _ => h) fun _ => h
  | wait c mask =>
    refine iteInduction (fun _ => iteInduction (fun _ => h) fun hwaits => iteInduction (fun _ => h) fun _ => ?_) fun _ => h
    refine idle_of_bound (not_not.mp (not_or.mp hwaits).2) ?_
    rw [setPhase_self]
    exact fun hc => by cases hc
  | receive c mask watch parks => exact iteInduction (fun _ => h.receive watch parks) fun _ => h
  | resume c =>
    simp only [Notification.step]
    split
    · exact iteInduction (fun _ => idle_of_accept rfl) fun _ => idle_of_accept rfl
    · refine h.waitLeave.setPhase fun _ hb => ?_
      unfold Notification.waitLeave at hb ⊢
      split
      · rfl
      next hne =>
        rw [if_neg hne] at hb
        exact absurd hb hne
    · exact h
  | ends c => exact h.setPhase fun hc hb => h c (Phase.off_away hc) hb
  | exit c =>
    refine iteInduction (fun _ => h) fun _ => ?_
    unfold unbind
    split
    · exact idle_of_accept rfl
    next hne => exact h.setPhase fun _ hb => absurd hb hne

end Notification

theorem Reachable.idle {n : Notification} (h : Reachable n) : n.Idle := by
  induction h with
  | create => exact Notification.idle_of_accept rfl
  | step _ o ih => exact ih.step o

/-- In every state that is reached, a step puts a thread to sleep on a pending bit that it accepts exactly where it is
the thread's own receive, which raised the bit itself: no raise, bind, wait, timeout or exit does, and a receive does
not but for the readiness watch of its own task. -/
theorem sleeps_through_iff {n : Notification} (h : Reachable n) {c : Tid} (hc : ¬ n.Asleep c) (o : Op) :
    (n.step o).Asleep c ↔ o.OwnWatch n c := by
  by_cases ho : ∃ d mask watch parks, o = .receive d mask watch parks
  · obtain ⟨d, mask, watch, parks, rfl⟩ := ho
    simp only [Notification.step]
    split
    next hd => exact Notification.asleep_receive h.idle hc hd watch parks
    next hd =>
      refine iff_of_false hc ?_
      rintro ⟨m, b, heq, hphase, -⟩
      cases heq
      exact hd hphase
  · push Not at ho
    exact iff_of_false (Notification.awake_step hc ho) fun ⟨mask, b, heq, _⟩ => ho c mask (some b) true heq

/-- A thread that is bound receives with bit 0 open, and its receive is the first on the endpoint that its own watch names. -/
theorem sleeps_through_iff_watch : ∃ n c, Reachable n ∧ ¬ n.Asleep c ∧ (n.step (.receive c 1 (some 0) true)).Asleep c := by
  have hbind : Reachable (Notification.step {} (.bind 0)) := .step .create _
  have hawake : ¬ (Notification.step {} (.bind 0)).Asleep 0 := Notification.awake_of_accept rfl
  exact ⟨_, 0, hbind, hawake, (sleeps_through_iff hbind hawake _).mpr ⟨1, 0, rfl, rfl, rfl, by decide, by decide⟩⟩

end KickOS.Notify
