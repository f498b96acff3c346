import KickOS.Smp.Switch

/-! Every run keeps the rings, the ready lists and the threads in agreement. -/

namespace KickOS
namespace Smp
open Function (update update_of_ne update_self)
namespace Machine

variable {m n : Nat} {k k' : Machine m n} {t x : Tid m n} {i : Fin n} {c me : Fin m}
  {parked : Bool} {w : List (Fin n)}

/-! ### The scheduler's entries -/

theorem reschedule_good (hn : n ≤ 2 ^ 15) (h : Good k) : Good (k.reschedule me) := by
  unfold reschedule
  split_ifs
  · exact pickAndSeat_good hn (h.held me false) (fun t ht => absurd ht (by simp))
  · exact h

theorem reschedule_held (hn : n ≤ 2 ^ 15) (h : Held me parked k w) : Held me parked (k.reschedule me) [] := by
  unfold reschedule
  split_ifs
  · exact (pickAndSeat_good hn h (fun t ht => absurd ht (by simp))).held me parked
  · exact h.forget

theorem Almost.wake (hn : n ≤ 2 ^ 15) (h : Inv k) (hl : ¬k.Linked (.slot i)) (hh : k.state (.slot i) ≠ .handed)
    (ha : ∃ c, k.placeableOn (.slot i) c = true) (home me : Fin m) :
    Inv ((k.setState (.slot i) .ready).publishReady (.slot i) home me) :=
  (h.detach hl hh).ready hn ha home me

theorem publish_waiting {home : Fin m} : ((k.setState t .ready).publishReady t home me).state t = .ready ∨
    ((k.setState t .ready).publishReady t home me).state t = .handed := by
  have hmv : Moves t (k.setState t .ready) ((k.setState t .ready).publishReady t home me) := moves_publishReady
  rcases hmv.self with h0 | h0
  · rw [h0, setState_self]
    exact Or.inl rfl
  · exact Or.inr h0

theorem Held.wake (hn : n ≤ 2 ^ 15) (h : Held me parked k w) (hl : ¬k.Linked (.slot i))
    (hh : k.state (.slot i) ≠ .handed) (ha : ∃ c, k.placeableOn (.slot i) c = true)
    (hc : k.current me ≠ some (.slot i)) (home : Fin m) :
    Held me parked ((k.setState (.slot i) .ready).publishReady (.slot i) home me) (i :: w) := by
  have hmv : Moves (.slot i) (k.setState (.slot i) .ready)
    ((k.setState (.slot i) .ready).publishReady (.slot i) home me) := moves_publishReady
  have hothers : ∀ x, x ≠ .slot i →
      ((k.setState (.slot i) .ready).publishReady (.slot i) home me).thr x = k.thr x :=
    fun x hx => (hmv.others x hx).trans (setState_ne hx)
  have hcur : ((k.setState (.slot i) .ready).publishReady (.slot i) home me).current = k.current := hmv.current
  refine ⟨h.inv.wake hn hl hh ha home me, fun c hcm t ht => ?_, fun t ht => ?_, ?_, ?_⟩
  · rw [hcur] at ht
    obtain ⟨hs, hq⟩ := h.seated c hcm t ht
    have hti : t ≠ .slot i := by
      rintro rfl
      exact hl (Or.inr hs)
    unfold state
    rw [hothers t hti]
    exact ⟨hs, hq⟩
  · rw [hcur] at ht
    have hti : t ≠ .slot i := by
      rintro rfl
      exact hc ht
    unfold state
    rw [hothers t hti]
    exact h.mine t ht
  · intro c
    rw [hcur, hmv.idle]
    exact h.started c
  · intro j hj
    by_cases hji : j = i
    · subst hji
      exact publish_waiting
    · have hjw := h.woken j ((List.mem_cons.1 hj).resolve_left hji)
      have hne : (.slot j : Tid m n) ≠ .slot i := by simpa using hji
      unfold state at hjw ⊢
      rwa [hothers _ hne]

theorem not_linked_of {st : TState} (h : k.state t = st) (h1 : st ≠ .ready) (h2 : st ≠ .running) :
    ¬k.Linked t := by
  rintro (h0 | h0)
  · exact h1 (h.symm.trans h0)
  · exact h2 (h.symm.trans h0)

theorem Held.placeAndAsk (hn : n ≤ 2 ^ 15) (h : Held me parked k w)
    (hs : k.state (.slot i) = .ready ∨ k.state (.slot i) = .handed) :
    Held me parked (k.placeAndAsk (.slot i) me) w :=
  h.shuffles (h.inv.placeAndAsk hn hs) (moves_placeAndAsk.shuffles hs)

theorem Held.settle (hn : n ≤ 2 ^ 15) (h : Held me parked k w) (hi : i ∈ w) :
    Held me parked (k.reschedAfterWake i me) [] := by
  have hask := (h.placeAndAsk hn (h.woken i hi)).forget
  unfold reschedAfterWake
  rcases k.current me with _ | c
  · exact hask
  · dsimp only
    split_ifs
    · exact hask
    · refine (pickAndSeat_good hn h fun t ht => ?_).held me parked
      cases ht
      exact ⟨i, hi, rfl⟩

/-! ### Requests about a thread -/

theorem shuffles_ringStage {e : Entry n} {dst : Fin m} : Shuffles k (k.ringStage me dst e) :=
  Shuffles.of_fields rfl rfl rfl

theorem Almost.ringReseat (hn : n ≤ 2 ^ 15) (hidle : ¬k.Linked (.slot i) → Inv k)
    (howed : (k.thr (.slot i)).reseatOwed = true → Inv k)
    (hfree : (k.thr (.slot i)).reseatOwed = false → Almost k none (some i)) :
    Inv (k.ringReseat i me) := by
  unfold Machine.ringReseat
  dsimp only
  by_cases ho : (k.thr (.slot i)).reseatOwed = true
  · split_ifs
    · exact howed ho
    · exact howed ho
  · split_ifs with hl
    · have hset := (hfree (Bool.eq_false_iff.2 ho)).setSlot (i := i) (fun x => { x with reseatOwed := true })
        (fun _ => ⟨by unfold Linked state; rw [setThr_self], fun _ => ⟨rfl, rfl⟩⟩)
        (fun _ => ⟨Iff.rfl, fun _ => rfl⟩) (fun h0 => absurd rfl h0) (fun _ h0 => absurd rfl h0)
        ((hfree (Bool.eq_false_iff.2 ho)).admitted i)
      exact hset.stageReseat hn (by rw [setThr_self])
    · exact hidle fun h0 => hl (Or.inl h0)

theorem shuffles_ringReseat : Shuffles k (k.ringReseat i me) := by
  unfold ringReseat
  dsimp only
  split_ifs
  · exact Shuffles.refl k
  · have hsh : Shuffles k (k.setThr (.slot i) fun x => { x with reseatOwed := true }) :=
      shuffles_setThr _ rfl rfl
    exact hsh.trans shuffles_ringStage
  · exact Shuffles.refl k

theorem Almost.ask (hn : n ≤ 2 ^ 15) (h : Inv k) : Inv (k.ringReseat i me) :=
  Almost.ringReseat hn (fun _ => h) (fun _ => h) fun h0 => h.unsettle h0

theorem Almost.setPrioAway (hn : n ≤ 2 ^ 15) (h : Inv k) (p : Prio) :
    Inv ((k.setThr (.slot i) fun x => { x with prio := p }).ringReseat i me) := by
  have hL : (k.setThr (.slot i) fun x => { x with prio := p }).Linked (.slot i) ↔ k.Linked (.slot i) := by
    unfold Linked state
    rw [setThr_self]
  refine Almost.ringReseat hn (fun hl => ?_) (fun ho => ?_) (fun ho => ?_)
  · exact h.setSlot _ (fun _ => ⟨hL, fun _ => ⟨rfl, rfl⟩⟩) (fun _ => ⟨Iff.rfl, fun _ => rfl⟩) (fun _ => rfl)
      (fun _ _ h0 _ => absurd h0 hl) (h.admitted i)
  · rw [setThr_self] at ho
    exact h.setSlot _ (fun _ => ⟨hL, fun _ => ⟨rfl, rfl⟩⟩) (fun _ => ⟨Iff.rfl, fun _ => rfl⟩) (fun _ => rfl)
      (fun _ _ _ _ => ho) (h.admitted i)
  · rw [setThr_self] at ho
    exact (h.unsettle ho).setSlot _ (fun _ => ⟨hL, fun _ => ⟨rfl, rfl⟩⟩) (fun _ => ⟨Iff.rfl, fun _ => rfl⟩)
      (fun _ => rfl) (fun _ h0 => absurd rfl h0) (h.admitted i)

theorem place_keeps (hn : n ≤ 2 ^ 15) (h : Inv k) (hs : k.state (.slot i) = .ready) (me : Fin m) :
    Inv (k.place (.slot i) me).1 ∧ Shuffles k (k.place (.slot i) me).1 :=
  ⟨h.place hn hs, moves_place.shuffles (Or.inl hs)⟩

theorem linked_of_here (h : k.linkedHere t me = true) : k.Linked t ∧ (k.thr t).queueCore = me := by
  simpa only [linkedHere, Bool.decide_and, Bool.and_eq_true, decide_eq_true_eq] using h

theorem setPrio_keeps (hn : n ≤ 2 ^ 15) (h : Inv k) (i : Fin n) (p : Prio) (me : Fin m) :
    Inv (k.setPrio i p me) ∧ Shuffles k (k.setPrio i p me) := by
  unfold setPrio
  dsimp only
  by_cases hp : (k.thr (.slot i)).prio = p
  · rw [if_pos hp]
    exact ⟨h, Shuffles.refl k⟩
  · rw [if_neg hp]
    by_cases hh : k.linkedHere (.slot i) me = true
    · rw [if_pos hh]
      obtain ⟨hl, -⟩ := linked_of_here hh
      have h₁ := h.rekey hl (fun x => { x with prio := p, rqPrio := p }) rfl rfl rfl rfl
      have hsh : Shuffles k (((k.policyOnRemove (.slot i)).setThr (.slot i)
          fun x => { x with prio := p, rqPrio := p }).policyOnReady (.slot i)) := shuffles_rekey _ rfl rfl
      generalize (((k.policyOnRemove (.slot i)).setThr (.slot i)
        fun x => { x with prio := p, rqPrio := p }).policyOnReady (.slot i)) = k₁ at h₁ hsh ⊢
      by_cases hs : k₁.state (.slot i) = .ready
      · rw [if_pos hs]
        obtain ⟨h₂, hsh₂⟩ := place_keeps hn h₁ hs me
        split_ifs
        · exact ⟨h₂.congr rfl rfl rfl rfl, (hsh.trans hsh₂).trans (Shuffles.of_fields rfl rfl rfl)⟩
        · exact ⟨h₂, hsh.trans hsh₂⟩
      · rw [if_neg hs]
        split_ifs
        · exact ⟨h₁.congr rfl rfl rfl rfl, hsh.trans (Shuffles.of_fields rfl rfl rfl)⟩
        · exact ⟨h₁, hsh⟩
    · rw [if_neg hh]
      have hsh : Shuffles k (k.setThr (.slot i) fun x => { x with prio := p }) := shuffles_setThr _ rfl rfl
      exact ⟨h.setPrioAway hn p, hsh.trans shuffles_ringReseat⟩

theorem Almost.setMask (h : Inv k) {mask : BitVec 32} (hm : ∃ c : Fin m, mask.getLsbD c = true) :
    Inv (k.setThr (.slot i) fun x => { x with affinity := mask }) :=
  h.setSlot _ (fun _ => ⟨by unfold Linked state; rw [setThr_self], fun _ => ⟨rfl, rfl⟩⟩)
    (fun _ => ⟨Iff.rfl, fun _ => rfl⟩) (fun _ => rfl)
    (fun _ _ hl hk => h.stale i (by simp) (by simp)
      (by unfold Linked state at hl ⊢; rwa [setThr_self] at hl) hk) (Or.inr hm)

theorem setAffinity_held {mask : BitVec 32} (hn : n ≤ 2 ^ 15) (h : Held me parked k w)
    (hm : ∃ c : Fin m, mask.getLsbD c = true) : Held me parked (k.setAffinity i mask me) [] := by
  unfold setAffinity
  dsimp only
  by_cases ha : (k.thr (.slot i)).affinity = mask
  · rw [if_pos ha]
    exact h.forget
  · rw [if_neg ha]
    have h₁ : Held me parked (k.setThr (.slot i) fun x => { x with affinity := mask }) w :=
      h.shuffles (h.inv.setMask hm) (shuffles_setThr _ rfl rfl)
    generalize (k.setThr (.slot i) fun x => { x with affinity := mask }) = k₁ at h₁ ⊢
    by_cases hh : k₁.linkedHere (.slot i) me = true
    · rw [if_pos hh]
      by_cases hs : k₁.state (.slot i) = .ready
      · rw [if_pos hs]
        obtain ⟨h₂, hsh₂⟩ := place_keeps hn h₁.inv hs me
        split_ifs
        · exact reschedule_held hn (h₁.shuffles h₂ hsh₂)
        · exact (h₁.shuffles h₂ hsh₂).forget
      · rw [if_neg hs]
        split_ifs
        · exact h₁.forget
        · exact reschedule_held hn h₁
    · rw [if_neg hh]
      exact (h₁.shuffles (h₁.inv.ask hn) shuffles_ringReseat).forget

theorem cancelKind_keeps (hn : n ≤ 2 ^ 15) (h : Inv k) (i : Fin n) (kind : CancelKind) (me : Fin m) :
    Inv (k.cancelKind i kind me) ∧ Shuffles k (k.cancelKind i kind me) := by
  unfold cancelKind
  dsimp only
  split_ifs with h0 hc hr
  · exact ⟨h, Shuffles.refl k⟩
  all_goals
    have h₁ : Inv (k.setThr (.slot i) fun x => { x with cancelKind := kind }) :=
      h.mark _ fun _ => ⟨rfl, rfl, rfl, rfl, rfl, rfl⟩
    have hsh : Shuffles k (k.setThr (.slot i) fun x => { x with cancelKind := kind }) :=
      shuffles_setThr _ rfl rfl
  · exact ⟨h₁, hsh⟩
  · unfold reseat
    split_ifs
    · exact ⟨h₁.congr rfl rfl rfl rfl, hsh.trans (Shuffles.of_fields rfl rfl rfl)⟩
    · exact ⟨h₁.ask hn, hsh.trans shuffles_ringReseat⟩
  · exact ⟨h₁, hsh⟩

/-! ### The running thread -/

theorem Almost.rqRotate (h : Inv k) (hl : k.Linked t) : Inv (k.rqRotate t) := by
  have hmem : t ∈ k.ready (k.thr t).queueCore (k.thr t).rqPrio := (h.linked t (by simp) _ _).2 ⟨hl, rfl, rfl⟩
  unfold Machine.rqRotate
  dsimp only
  split_ifs
  · exact h
  · set l := k.ready (k.thr t).queueCore (k.thr t).rqPrio with hlist
    have hnd : l.Nodup := h.nodup _ _
    have hperm : (l.erase t ++ [t]).Perm l :=
      List.perm_append_comm.trans (List.perm_cons_erase hmem).symm
    have hready : ∀ c p, ((k.setReady (k.thr t).queueCore (k.thr t).rqPrio (l.erase t ++ [t])).ready c p).Perm
        (k.ready c p) := by
      intro c p
      by_cases hc : c = (k.thr t).queueCore
      · subst hc
        by_cases hp : p = (k.thr t).rqPrio
        · subst hp
          simpa [setReady] using hperm
        · simp [setReady, hp]
      · simp [setReady, hc]
    exact h.relist rfl rfl rfl
      (fun x hx c p => (hready c p).mem_iff.trans (h.linked x hx c p)) (fun x hx => absurd hx (by simp))
      (fun c p => (hready c p).nodup_iff.2 (h.nodup c p)) h.hand h.unhand h.stale

theorem yield_held (hn : n ≤ 2 ^ 15) (h : Held me parked k w) : Held me parked (k.yield me) [] := by
  unfold yield
  rcases hc : k.current me with _ | t
  · exact h.forget
  · dsimp only
    split_ifs with hs
    · refine reschedule_held hn (h.shuffles (h.inv.rqRotate (Or.inr hs)) ?_)
      unfold rqRotate
      dsimp only
      split_ifs
      · exact Shuffles.refl k
      · exact Shuffles.of_fields rfl rfl rfl
    · exact h.forget

theorem leave_fields (i : Fin n) (st : TState) : (k.leave i st).thr = (k.setState (.slot i) st).thr ∧
    (k.leave i st).ready = (k.policyOnRemove (.slot i)).ready ∧ (k.leave i st).ring = k.ring ∧
    (k.leave i st).idle = k.idle ∧ (k.leave i st).current = k.current := by
  unfold leave
  refine ⟨policyOnRemove_thr _ _, ?_, policyOnRemove_ring _ _, policyOnRemove_idle _ _,
    policyOnRemove_current _ _⟩
  rw [policyOnRemove_ready, policyOnRemove_ready]
  simp [setState, setThr]

theorem Almost.leave (h : Inv k) (hl : k.Linked (.slot i)) {st : TState}
    (hst : st = .blocked ∨ st = .exited) : Inv (k.leave i st) := by
  have hni : k.state (.slot i) ≠ .inactive := by
    rcases hl with h0 | h0 <;> rw [h0] <;> decide
  have ha := h.placeable hni
  have hset := (h.remove hl).setSlot (i := i) (fun x => { x with state := st }) (fun h0 => absurd rfl h0)
    (fun h0 => absurd rfl h0) (fun _ => rfl) (fun h0 => absurd rfl h0)
    (Or.inr (by rw [policyOnRemove_thr]; exact ha))
  obtain ⟨h1, h2, h3, h4, -⟩ := leave_fields (k := k) i st
  have hloose : Almost (k.leave i st) (some (.slot i)) none := by
    refine hset.congr ?_ h2 ?_ ?_
    · rw [h1]
      unfold setState setThr
      rw [policyOnRemove_thr]
    · rw [h3, setThr_ring, policyOnRemove_ring]
    · rw [h4, setThr_idle, policyOnRemove_idle]
  have hs : (k.leave i st).state (.slot i) = st := by
    have h0 : (k.setState (.slot i) st).state (.slot i) = st := setState_self
    unfold state at h0 ⊢
    rw [h1, h0]
  refine hloose.attach (not_linked_of hs ?_ ?_) ?_
  · rcases hst with rfl | rfl <;> decide
  · rcases hst with rfl | rfl <;> decide
  · rw [hs]
    rcases hst with rfl | rfl <;> decide

theorem leave_held {st : TState} (h : Held me false k w) (hc : k.current me = some (.slot i))
    (hst : st = .blocked ∨ st = .exited) : Held me true (k.leave i st) w := by
  obtain ⟨hs, hq⟩ := h.good.seated me _ hc
  obtain ⟨h1, -, -, h4, h5⟩ := leave_fields (k := k) i st
  have hself : (k.leave i st).state (.slot i) = st := by
    have h0 : (k.setState (.slot i) st).state (.slot i) = st := setState_self
    unfold state at h0 ⊢
    rw [h1, h0]
  have hothers : ∀ x, x ≠ .slot i → (k.leave i st).thr x = k.thr x := by
    intro x hx
    rw [h1]
    exact setState_ne hx
  refine ⟨h.inv.leave (Or.inr hs) hst, fun c hcm t ht => ?_, fun t ht => ?_, by rw [h4, h5]; exact h.started,
    fun j hj => ?_⟩
  · rw [h5] at ht
    obtain ⟨hs', hq'⟩ := h.seated c hcm t ht
    have hti : t ≠ .slot i := by
      rintro rfl
      exact hcm (hq'.symm.trans hq)
    unfold state
    rw [hothers t hti]
    exact ⟨hs', hq'⟩
  · rw [h5, hc] at ht
    cases ht
    rw [hself]
    exact Or.inr ⟨rfl, hst⟩
  · have hjw := h.woken j hj
    have hji : (.slot j : Tid m n) ≠ .slot i := by
      intro h0
      rw [h0, hs] at hjw
      rcases hjw with h1 | h1 <;> cases h1
    unfold state at hjw ⊢
    rwa [hothers _ hji]

/-! ### Threads coming and going -/

theorem admitMask_spec {requested grant mask : BitVec 32} (h : admitMask m requested grant = some mask) :
    ∃ c : Fin m, mask.getLsbD c = true := by
  unfold admitMask at h
  dsimp only at h
  split_ifs at h with h0
  cases h
  by_contra hno
  refine h0 (BitVec.eq_of_getLsbD_eq fun j hj => ?_)
  by_cases hjm : j < m
  · have hj' := not_exists.1 hno ⟨j, hjm⟩
    simpa using hj'
  · have hbit : (coreSetAll m).getLsbD j = false := by
      rw [coreSetAll, BitVec.getLsbD_ofNat, Nat.testBit_two_pow_sub_one]
      simp [hjm]
    rw [BitVec.getLsbD_and, BitVec.getLsbD_and, hbit]
    simp

theorem create_held [NeZero m] {prio : Prio} {mask : BitVec 32} (h : Held me parked k w)
    (hm : ∃ c : Fin m, mask.getLsbD c = true) (hc : k.current me ≠ some (.slot i)) :
    Held me parked (k.create i prio mask) w := by
  unfold create
  dsimp only
  split_ifs with hs
  · have hdead : k.state (.slot i) = .exited ∨ k.state (.slot i) = .inactive := hs.imp_right And.left
    have hne : ∀ st, st = .ready ∨ st = .running ∨ st = .handed ∨ st = .blocked → k.state (.slot i) ≠ st := by
      intro st hst h0
      rcases hdead with h1 | h1 <;> rw [h1] at h0 <;> subst h0 <;> simp at hst
    have hl : ¬k.Linked (.slot i) := by
      rintro (h0 | h0)
      · exact hne _ (by simp) h0
      · exact hne _ (by simp) h0
    refine ⟨?_, fun c hcm t ht => ?_, fun t ht => ?_, h.started, fun j hj => ?_⟩
    · refine h.inv.setSlot _ (fun _ => ⟨iff_of_false ?_ hl, fun h0 => absurd h0 hl⟩)
        (fun _ => ⟨iff_of_false (by simp) (hne _ (by simp)), fun h0 => absurd h0 (hne _ (by simp))⟩)
        (fun _ => rfl) (fun _ _ h0 => absurd h0 ?_) (Or.inr hm)
      · unfold Linked state
        rw [setThr_self]
        simp
      · unfold Linked state
        rw [setThr_self]
        simp
    · obtain ⟨hs', hq'⟩ := h.seated c hcm t ht
      have hti : t ≠ .slot i := by
        rintro rfl
        exact hl (Or.inr hs')
      unfold state
      rw [setThr_ne k _ hti]
      exact ⟨hs', hq'⟩
    · have hti : t ≠ .slot i := by
        rintro rfl
        exact hc ht
      unfold state
      rw [setThr_ne k _ hti]
      exact h.mine t ht
    · have hjw := h.woken j hj
      have hji : (.slot j : Tid m n) ≠ .slot i := by
        intro h0
        rw [h0] at hjw
        rcases hjw with h1 | h1
        · exact hne _ (by simp) h1
        · exact hne _ (by simp) h1
      unfold state at hjw ⊢
      rwa [setThr_ne k _ hji]
  · exact h

theorem add_held (hn : n ≤ 2 ^ 15) (h : Held me parked k w) : Held me parked (k.add i me) w := by
  unfold add
  dsimp only
  split_ifs with hs
  · obtain ⟨hi, haff⟩ := hs
    have ha : ∃ c, k.placeableOn (.slot i) c = true := by
      rcases h.inv.admitted i with ⟨h0, -⟩ | h0
      · exact absurd h0 haff
      · exact h0
    have hc : k.current me ≠ some (.slot i) := by
      intro h0
      rcases h.mine _ h0 with ⟨h1, -⟩ | ⟨-, h1⟩
      · rw [hi] at h1
        cases h1
      · rcases h1 with h1 | h1 <;> rw [hi] at h1 <;> cases h1
    have h₁ := h.wake hn (not_linked_of hi (by decide) (by decide)) (by rw [hi]; decide) ha hc
      (k.homeFor (.slot i) me)
    have h₂ := h₁.placeAndAsk hn (h₁.woken i List.mem_cons_self)
    exact ⟨h₂.inv, h₂.seated, h₂.mine, h₂.started, fun j hj => h₂.woken j (List.mem_cons_of_mem _ hj)⟩
  · exact h

end Machine

open Machine

variable {m n : Nat} {k : Machine m n} {me : Fin m} {parked : Bool}

/-! ### Spans -/

theorem ready_held {s : Span m n} {i : Fin n} (hn : n ≤ 2 ^ 15) (h : Held me parked s.k s.woken) :
    Held me parked (Call.ready s i me).k (Call.ready s i me).woken := by
  unfold Call.ready
  split_ifs with hc
  · exact h
  · by_cases hs : s.k.state (.slot i) = .blocked
    · have hw := h.wake hn (not_linked_of hs (by decide) (by decide)) (by rw [hs]; decide)
        (h.inv.placeable (by rw [hs]; decide)) hc (s.k.homeFor (.slot i) me)
      simpa [wakeNoResched, if_pos hs] using hw
    · simpa [wakeNoResched, if_neg hs] using h

theorem settle_held {s : Span m n} {i : Fin n} (hn : n ≤ 2 ^ 15) (h : Held me parked s.k s.woken) :
    Held me parked (Call.settle s i me).k (Call.settle s i me).woken := by
  unfold Call.settle
  split_ifs with hi
  · exact h.settle hn hi
  · exact h

theorem call_held [NeZero m] {s : Span m n} (hn : n ≤ 2 ^ 15) (h : Held me parked s.k s.woken) (call : Call n) :
    Held me parked (Call.run me s call).k (Call.run me s call).woken := by
  cases call with
  | wake i => exact settle_held hn (ready_held hn h)
  | wakeNoResched i => exact ready_held hn h
  | placeReady i =>
    unfold Call.run
    dsimp only
    split_ifs with hi
    · exact h.placeAndAsk hn (h.woken i hi)
    · exact h
  | reschedAfterWake i => exact settle_held hn h
  | setPrio i p =>
    obtain ⟨h', hsh⟩ := setPrio_keeps hn h.inv i p me
    exact h.shuffles h' hsh
  | setAffinity i requested grant =>
    unfold Call.run
    dsimp only
    rcases hm : admitMask m requested grant with _ | mask
    · exact h
    · dsimp only
      split_ifs
      · exact h
      · exact setAffinity_held hn h (admitMask_spec hm)
  | cancel i kind =>
    obtain ⟨h', hsh⟩ := cancelKind_keeps hn h.inv i kind me
    exact h.shuffles h' hsh
  | yield => exact yield_held hn h
  | reschedule => exact reschedule_held hn h
  | add i => exact add_held hn h
  | create i prio requested grant =>
    unfold Call.run
    dsimp only
    rcases hm : admitMask m requested grant with _ | mask
    · exact h
    · dsimp only
      split_ifs with hc
      · exact h
      · exact create_held h (admitMask_spec hm) hc
  | exitBegin =>
    show Held me parked (s.k.exitBegin me) s.woken
    unfold exitBegin
    rcases s.k.current me with _ | t
    · exact h
    · cases t with
      | slot i => exact h.shuffles (h.inv.mark _ fun _ => ⟨rfl, rfl, rfl, rfl, rfl, rfl⟩) (shuffles_setThr _ rfl rfl)
      | idle c => exact h

theorem calls_held [NeZero m] {s : Span m n} (hn : n ≤ 2 ^ 15) (h : Held me parked s.k s.woken)
    (l : List (Call n)) : Held me parked (Op.calls me s l).k (Op.calls me s l).woken := by
  unfold Op.calls
  refine List.foldlRecOn (motive := fun s : Span m n => Held me parked s.k s.woken) _ _ h ?_
  intro s' h' call _
  exact call_held hn h' call

theorem weighed_spec {s : Span m n} {woken : Option (Fin n)} {t : Tid m n} (h : Op.weighed s woken = some t) :
    ∃ i ∈ s.woken, t = .slot i := by
  unfold Op.weighed at h
  cases woken with
  | none => cases h
  | some i =>
    dsimp only at h
    split_ifs at h with hi
    exact ⟨i, hi, (Option.some.inj h).symm⟩

/-! ### The other steps -/

theorem doorbell_good (hn : n ≤ 2 ^ 15) (h : Good k) : Good (k.doorbell me) := by
  unfold doorbell
  split_ifs with ho
  · have h₁ : Good { k with owed := update k.owed me false } := h.congr rfl rfl rfl rfl rfl
    generalize { k with owed := update k.owed me false } = k₁ at h₁ ⊢
    dsimp only
    by_cases hc : (k₁.current me).isSome = true
    · rw [if_pos hc]
      obtain ⟨h₂, hsh₂⟩ := drain_keeps hn k₁ me true (k₁.cursor me) schedDrainBudget 0 h₁.inv
      have hg₂ := h₁.shuffles h₂ hsh₂
      generalize k₁.ringDrain me true (k₁.cursor me) schedDrainBudget 0 = r at hg₂ ⊢
      have hg₃ : Good (if r.2 = true then r.1.reschedSelf me else r.1) := by
        split_ifs
        · exact hg₂.congr rfl rfl rfl rfl rfl
        · exact hg₂
      obtain ⟨h₄, hsh₄⟩ := pushTake_keeps hn hg₃.inv me
      exact reschedule_good hn (hg₃.shuffles h₄ hsh₄)
    · rw [if_neg hc]
      exact h₁
  · exact h

theorem pick_ne {i : Fin n} {t : Tid m n} (h : Inv k) (hon : k.onCpu me = some (.slot i))
    (hs : k.slayClaimPending (.slot i) = true) (hp : k.policyPickNext me = some t) : t ≠ .slot i := by
  rintro rfl
  unfold policyPickNext at hp
  rcases Option.or_eq_some_iff.1 hp with h0 | ⟨-, h0⟩
  · obtain ⟨p, -, hp⟩ := List.exists_of_findSome?_eq_some h0
    have hav := List.find?_some hp
    simp [availableTo, hon, hs] at hav
  · cases (h.idleAt me _ h0).1

theorem cancelKind_onCpu {i : Fin n} {kind : CancelKind} : (k.cancelKind i kind me).onCpu = k.onCpu := by
  unfold cancelKind
  dsimp only
  split_ifs
  · rfl
  · rfl
  · unfold reseat ringReseat
    dsimp only
    split_ifs <;> rfl
  · rfl

theorem contain_good (hn : n ≤ 2 ^ 15) (h : Good k) : Good (k.contain me) := by
  unfold contain
  rcases hon : k.onCpu me with _ | t
  · exact h
  · cases t with
    | idle c => exact h
    | slot i =>
      dsimp only
      obtain ⟨h', hsh⟩ := cancelKind_keeps hn h.inv i .slay me
      have hg := h.shuffles h' hsh
      have hon' : (k.cancelKind i .slay me).onCpu me = some (.slot i) := by
        rw [cancelKind_onCpu]
        exact hon
      generalize k.cancelKind i .slay me = k₁ at hg hon' ⊢
      split_ifs with hc
      · obtain ⟨hs, hcur⟩ := hc
        rcases hp : k₁.policyPickNext me with _ | next
        · exact hg
        · obtain ⟨hl, hq⟩ := pick_spec hg.inv hp
          exact switchBook_good hn (hg.held me false) hl hq hcur (pick_ne hg.inv hon' hs hp)
      · exact hg

theorem setThr_setThr {t : Tid m n} (f g : Tcb m → Tcb m) :
    (k.setThr t f).setThr t g = k.setThr t (g ∘ f) := by
  simp [setThr]

theorem linkIdle_ne {c : Fin m} {x : Tid m n} (h : x ≠ .idle c) : (k.linkIdle c).thr x = k.thr x := by
  unfold linkIdle linkReady
  rw [policyOnReady_thr, setThr_ne _ _ h, setThr_ne _ _ h]

theorem linkIdle_fields (k : Machine m n) (c : Fin m) :
    (k.linkIdle c).current = k.current ∧ (k.linkIdle c).idle = k.idle := by
  unfold linkIdle linkReady
  rw [policyOnReady_current, policyOnReady_idle]
  exact ⟨rfl, rfl⟩

theorem linkIdle_linked {c : Fin m} : (k.linkIdle c).Linked (.idle c) := by
  unfold linkIdle Linked
  rw [linkReady_state]
  unfold state
  rw [setThr_self]
  exact Or.inl rfl

theorem linkIdle_inv {c : Fin m} (h : Inv k) (hs : k.state (.idle c) = .inactive) : Inv (k.linkIdle c) := by
  have hl : ¬k.Linked (.idle c) := not_linked_of hs (by decide) (by decide)
  have h₁ := (h.detach hl (by rw [hs]; decide)).setIdle (c := c)
    ((fun x => { x with queueCore := c, rqPrio := x.prio }) ∘
      fun x => { x with state := .ready, affinity := 1#32 <<< c.val })
    (fun h0 => absurd rfl h0) (by simp) (fun _ => ⟨rfl, rfl⟩) (fun h0 => absurd (h.idleAt c _ h0).2 hl)
  rw [← setThr_setThr] at h₁
  refine h₁.link ?_ (fun i hi => by cases hi)
  unfold Linked state
  rw [setThr_self, setThr_self]
  exact Or.inl rfl

theorem addIdle_good {c : Fin m} (h : Good k) : Good (k.addIdle c) := by
  unfold addIdle
  split_ifs with hs
  · have hl : ¬k.Linked (.idle c) := not_linked_of hs (by decide) (by decide)
    have h₂ := linkIdle_inv h.inv hs
    obtain ⟨hcur, hidle⟩ := linkIdle_fields k c
    refine ⟨⟨h₂.linked, h₂.loose, h₂.nodup, h₂.hand, h₂.unhand, h₂.toward, h₂.reseat, h₂.unseat, h₂.stale,
      h₂.wf, h₂.pool, h₂.admitted, h₂.idleMask, fun d x hx => ?_⟩, fun d t ht => ?_, fun d hd => ?_⟩
    · by_cases hdc : d = c
      · subst hdc
        have h0 : update k.idle d (some (Tid.idle d)) d = some x := hx
        rw [update_self] at h0
        cases h0
        exact ⟨rfl, linkIdle_linked⟩
      · have h0 : update k.idle c (some (Tid.idle c)) d = some x := hx
        rw [update_of_ne hdc, ← hidle] at h0
        exact h₂.idleAt d x h0
    · obtain ⟨hs', hq'⟩ := h.seated d t (hcur ▸ ht)
      have htc : t ≠ .idle c := by
        rintro rfl
        exact hl (Or.inr hs')
      show ((k.linkIdle c).thr t).state = .running ∧ ((k.linkIdle c).thr t).queueCore = d
      rw [linkIdle_ne htc]
      exact ⟨hs', hq'⟩
    · show update k.idle c (some (Tid.idle c)) d ≠ none
      by_cases hdc : d = c
      · subst hdc
        simp
      · rw [update_of_ne hdc]
        exact h.started d (hcur ▸ hd)
  · exact h

theorem start_good (hn : n ≤ 2 ^ 15) (h : Good k) : Good (k.start me) := by
  unfold start
  split_ifs with hc
  · obtain ⟨-, hsome⟩ := hc
    dsimp only
    obtain ⟨h₁, hsh₁⟩ := drain_keeps hn k me false (k.cursor me) (wordMod - 1) 0 h.inv
    have hg₁ := h.shuffles h₁ hsh₁
    have hi₁ : (k.ringDrain me false (k.cursor me) (wordMod - 1) 0).1.idle me ≠ none := by
      rw [hsh₁.idle]
      exact Option.isSome_iff_ne_none.1 hsome
    generalize (k.ringDrain me false (k.cursor me) (wordMod - 1) 0).1 = k₁ at hg₁ hi₁ ⊢
    rcases hp : k₁.policyPickNext me with _ | first
    · exact hg₁
    · obtain ⟨hl, hq⟩ := pick_spec hg₁.inv hp
      have hg₂ := seatRunning_good hg₁.inv hl hq (fun c _ => hg₁.seated c) hi₁ hg₁.started
      dsimp only
      generalize k₁.seatRunning first me = k₂ at hg₂ ⊢
      have hg₃ : Good ({ k₂ with onCpu := update k₂.onCpu me (some first) }.publishTop me
          (k₂.readyBitmap me)) :=
        hg₂.congr (publishTop_thr _ _ _) (publishTop_ready _ _ _) (publishTop_ring _ _ _)
          (publishTop_idle _ _ _) (publishTop_current _ _ _)
      have hw := walked_placeDeclined hn hg₃.inv first none me
      have hg₄ := hg₃.shuffles hw.inv hw.shuffles
      generalize ({ k₂ with onCpu := update k₂.onCpu me (some first) }.publishTop me
        (k₂.readyBitmap me)).placeDeclined first none me = k₃ at hg₄ ⊢
      have hg₅ : Good { k₃ with seatedPrio := update k₃.seatedPrio me (k₃.thr first).rqPrio } :=
        hg₄.congr rfl rfl rfl rfl rfl
      obtain ⟨h1, h2, h3, h4, h5⟩ := dropScan_fields
        { k₃ with seatedPrio := update k₃.seatedPrio me (k₃.thr first).rqPrio } me
      exact hg₅.congr h1 h2 h3 h4 h5
  · exact h

theorem op_good [NeZero m] (hn : n ≤ 2 ^ 15) (h : Good k) (op : Op m n) : Good (op.run k) := by
  cases op with
  | span me l => exact (calls_held hn (h.held me false) l).good
  | park me before after woken =>
    have hb := calls_held (s := ⟨k, []⟩) hn (h.held me false) before
    show Good (Op.run k (.park me before after woken))
    unfold Op.run
    dsimp only
    generalize Op.calls me ⟨k, []⟩ before = s at hb ⊢
    rcases hc : s.k.current me with _ | t
    · exact hb.good
    · cases t with
      | idle c => exact hb.good
      | slot i =>
        have ha := calls_held (s := ⟨s.k.leave i .blocked, s.woken⟩) hn (leave_held hb hc (Or.inl rfl)) after
        exact pickAndSeat_good hn ha fun t ht => weighed_spec ht
  | exit me before after =>
    have hb := calls_held (s := ⟨k, []⟩) hn (h.held me false) before
    unfold Op.run
    dsimp only
    generalize Op.calls me ⟨k, []⟩ before = s at hb ⊢
    rcases hc : s.k.current me with _ | t
    · exact hb.good
    · cases t with
      | idle c => exact hb.good
      | slot i =>
        have ha := calls_held (s := ⟨s.k.leave i .exited, s.woken⟩) hn (leave_held hb hc (Or.inr rfl)) after
        exact pickAndSeat_good hn ha fun t ht => absurd ht (by simp)
  | doorbell me => exact doorbell_good hn h
  | flush me => exact h.shuffles h.inv.flush (Shuffles.of_fields rfl rfl rfl)
  | switched me => exact h.congr rfl rfl rfl rfl rfl
  | contain me => exact contain_good hn h
  | addIdle c => exact addIdle_good h
  | start me => exact start_good hn h

theorem boot_good [NeZero m] [NeZero n] : Good (boot : Machine m n) := by
  have hl : ∀ t, ¬(boot : Machine m n).Linked t := by
    rintro t (h0 | h0) <;> cases h0
  have hW : 0 < wordMod := by
    unfold wordMod
    positivity
  have hz : Lib.Ring.ahead wordMod 0 0 = 0 := Lib.Ring.ahead_self hW
  have hin : ∀ p c, (boot : Machine m n).inFlight p c = [] := by
    intro p c
    simp [inFlight, boot, Lib.Ring.contents, hz]
  have hfl : ∀ e, (boot : Machine m n).flight e = 0 := by
    intro e
    simp [flight, hin]
  refine ⟨⟨fun t _ c p => ?_, fun t _ c p => ?_, fun c p => ?_, fun i _ => ?_, fun i _ => hfl _,
    fun i p c hmem => ?_, fun i _ => ?_, fun i _ => hfl _, fun i _ _ h0 => absurd h0 (hl _), fun p c => ?_,
    fun c => ?_, fun i => Or.inl ⟨rfl, rfl⟩, fun c h0 => absurd h0 (hl _), fun c t h0 => ?_⟩, fun c t h0 => ?_,
    fun c h0 => absurd rfl h0⟩
  · exact iff_of_false (by simp [boot]) fun h0 => hl t h0.1
  · simp [boot]
  · simp [boot]
  · rw [hfl, if_neg (by simp [boot, state])]
  · rw [hin] at hmem
    cases hmem
  · rw [hfl, if_neg (by simp [boot])]
  · exact ⟨hW, hW, hW, Nat.le_refl _, by simp [boot, hz]⟩
  · simp [boot, state]
  · cases h0
  · cases h0

theorem Reachable.good [NeZero m] [NeZero n] (hn : n ≤ 2 ^ 15) {k : Machine m n} (h : Reachable k) : Good k := by
  induction h with
  | boot => exact boot_good
  | step op _ ih => exact op_good hn ih op

/-! ### What holds in every reachable state -/

/-- The rings, the ready lists and the threads agree, and no ring is over-full. -/
structure HandoffExact (k : Machine m n) : Prop where
  /-- A handed thread has one hand-off entry over all rings, toward its core; no other has any. -/
  handed : ∀ i, k.state (.slot i) = .handed →
    k.flight (.hand i) = 1 ∧ ∃ p, .hand i ∈ k.inFlight p (k.thr (.slot i)).queueCore
  unhanded : ∀ i, k.state (.slot i) ≠ .handed → k.flight (.hand i) = 0
  /-- A ready or running thread is once on the list of its core and key, and on no other. -/
  linked : ∀ i, k.Linked (.slot i) → ∀ c p, (k.ready c p).count (.slot i) =
    if (k.thr (.slot i)).queueCore = c ∧ (k.thr (.slot i)).rqPrio = p then 1 else 0
  unlinked : ∀ i, ¬k.Linked (.slot i) → ∀ c p, .slot i ∉ k.ready c p
  /-- At most one request a thread over all rings, and one exactly while its byte is set. -/
  reseat : ∀ i, k.flight (.reseat i) = if (k.thr (.slot i)).reseatOwed = true then 1 else 0
  /-- A linked thread whose priority has moved has its request in flight. -/
  stale : ∀ i, k.Linked (.slot i) → (k.thr (.slot i)).rqPrio ≠ (k.thr (.slot i)).prio →
    k.flight (.reseat i) = 1
  /-- No ring is fuller than its depth, which is at least twice the thread count. -/
  fits : ∀ p c, (k.inFlight p c).length ≤ ringDepth n ∧ 2 * n ≤ ringDepth n
  /-- An entry that is in no ring is appended, whatever ring it is staged on. -/
  staged : ∀ e me dst, k.flight e = 0 →
    (k.ringStage me dst e).inFlight me dst = k.inFlight me dst ++ [e]
  /-- The entry a drain takes is in no ring after it, and what it asks for is still to be done. -/
  drained : ∀ p c e, (k.ring p c).front? (ringDepth n) = some e → (k.retire p c).flight e = 0 ∧
    (∀ i, e = .hand i → k.state (.slot i) = .handed ∧ (k.thr (.slot i)).queueCore = c) ∧
    (∀ i, e = .reseat i → (k.thr (.slot i)).reseatOwed = true)

theorem Machine.Almost.exact (hn : n ≤ 2 ^ 15) (h : Inv k) : HandoffExact k where
  handed := by
    intro i hs
    have hone : k.flight (.hand i) = 1 := by
      rw [h.hand i (by simp), if_pos hs]
    obtain ⟨p, c, hmem⟩ := exists_of_flight (k := k) (e := .hand i) (by omega)
    refine ⟨hone, p, ?_⟩
    rw [h.toward i p c hmem]
    exact hmem
  unhanded := by
    intro i hs
    rw [h.hand i (by simp), if_neg hs]
  linked := by
    intro i hl c p
    by_cases hcp : (k.thr (.slot i)).queueCore = c ∧ (k.thr (.slot i)).rqPrio = p
    · rw [if_pos hcp]
      exact List.count_eq_one_of_mem (h.nodup c p) ((h.linked _ (by simp) c p).2 ⟨hl, hcp⟩)
    · rw [if_neg hcp]
      exact List.count_eq_zero.2 fun h0 => hcp (h.linked_of_mem h0).2
  unlinked := fun i hl c p h0 => hl (h.linked_of_mem h0).1
  reseat := fun i => h.reseat i (by simp)
  stale := by
    intro i hl hk
    rw [h.reseat i (by simp), if_pos (h.stale i (by simp) (by simp) hl hk)]
  fits := fun p c => ⟨(h.inFlight_length p c).trans (ringDepth_spec hn).1, (ringDepth_spec hn).1⟩
  staged := by
    intro e me dst he
    rw [h.inFlight_stage hn he]
    simp
  drained := by
    intro p c e hf
    have hfl := h.flight_retire hn hf e
    have hone := h.flight_le_one e
    rw [if_pos rfl] at hfl
    refine ⟨by omega, ?_, ?_⟩
    · rintro i rfl
      exact h.handed_of_front hn hf
    · rintro i rfl
      exact h.owed_of_front hn hf

/-- Over every interleaving of the cores, no hand-off and no request is lost or applied twice. The
    slot ceiling keeps a slot index clear of the request bit of a ring entry. -/
theorem handoff_exact [NeZero m] [NeZero n] (hn : n ≤ 2 ^ 15) {k : Machine m n} (h : Reachable k) :
    HandoffExact k :=
  (h.good hn).inv.exact hn

/-- A thread pinned to core 1 and added by core 0 is handed. -/
theorem handoff_exact_handed : ∃ k : Machine 2 1, k.state (.slot 0) = .handed ∧ HandoffExact k :=
  ⟨(Op.span 0 [.create 0 5 0b10#32 0b11#32, .add 0]).run boot, by decide,
    handoff_exact (by decide) (.step _ .boot)⟩

end Smp
end KickOS
