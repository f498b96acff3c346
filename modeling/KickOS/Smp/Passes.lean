import KickOS.Smp.Invariant

/-! What placing, draining and passing keep.

Placement only moves a thread that waits, so what a core runs and what is parked stay as they are:
`Shuffles` says so, and everything a core does between two changes of its running thread is one. -/

namespace KickOS
namespace Smp
namespace Machine

variable {m n : Nat} {k k' k'' : Machine m n} {t x : Tid m n} {i : Fin n} {c me home dst : Fin m}

/-- Waiting threads may have moved; every other thread keeps its state and its core. -/
structure Shuffles (k k' : Machine m n) : Prop where
  current : k'.current = k.current
  idle : k'.idle = k.idle
  still : ∀ t, k.state t ≠ .ready → k.state t ≠ .handed →
    k'.state t = k.state t ∧ (k'.thr t).queueCore = (k.thr t).queueCore
  waiting : ∀ t, k.state t = .ready ∨ k.state t = .handed → k'.state t = .ready ∨ k'.state t = .handed

namespace Shuffles

theorem refl (k : Machine m n) : Shuffles k k := ⟨rfl, rfl, fun _ _ _ => ⟨rfl, rfl⟩, fun _ h => h⟩

theorem trans (h₁ : Shuffles k k') (h₂ : Shuffles k' k'') : Shuffles k k'' where
  current := h₂.current.trans h₁.current
  idle := h₂.idle.trans h₁.idle
  still := by
    intro t hr hh
    obtain ⟨hs, hq⟩ := h₁.still t hr hh
    obtain ⟨hs', hq'⟩ := h₂.still t (hs ▸ hr) (hs ▸ hh)
    exact ⟨hs'.trans hs, hq'.trans hq⟩
  waiting := fun t ht => h₂.waiting t (h₁.waiting t ht)

theorem of_thr (hc : k'.current = k.current) (hi : k'.idle = k.idle)
    (h : ∀ t, k'.state t = k.state t ∧ (k'.thr t).queueCore = (k.thr t).queueCore) : Shuffles k k' :=
  ⟨hc, hi, fun t _ _ => h t, fun t ht => by rwa [(h t).1]⟩

end Shuffles

/-- Only thread `t` is written, and waiting it stays waiting. -/
structure Moves (t : Tid m n) (k k' : Machine m n) : Prop where
  current : k'.current = k.current
  idle : k'.idle = k.idle
  others : ∀ x, x ≠ t → k'.thr x = k.thr x
  self : k'.state t = k.state t ∨ k'.state t = .handed

theorem Moves.refl (t : Tid m n) (k : Machine m n) : Moves t k k := ⟨rfl, rfl, fun _ _ => rfl, Or.inl rfl⟩

theorem Moves.trans (h₁ : Moves t k k') (h₂ : Moves t k' k'') : Moves t k k'' where
  current := h₂.current.trans h₁.current
  idle := h₂.idle.trans h₁.idle
  others := fun x hx => (h₂.others x hx).trans (h₁.others x hx)
  self := by
    rcases h₂.self with h | h
    · rw [h]
      exact h₁.self
    · exact Or.inr h

theorem Moves.shuffles (h : Moves t k k') (ht : k.state t = .ready ∨ k.state t = .handed) :
    Shuffles k k' := by
  refine ⟨h.current, h.idle, ?_, ?_⟩
  · intro x hr hh
    have hx : x ≠ t := by
      rintro rfl
      rcases ht with h0 | h0
      · exact hr h0
      · exact hh h0
    unfold state
    rw [h.others x hx]
    exact ⟨rfl, rfl⟩
  · intro x hx
    by_cases hxt : x = t
    · subst hxt
      rcases h.self with h0 | h0
      · rwa [h0]
      · exact Or.inr h0
    · have hs : k'.state x = k.state x := by
        unfold state
        rw [h.others x hxt]
      rwa [hs]

theorem moves_setThr (f : Tcb m → Tcb m) (hf : (f (k.thr t)).state = (k.thr t).state ∨ (f (k.thr t)).state = .handed) :
    Moves t k (k.setThr t f) := by
  refine ⟨rfl, rfl, fun x hx => setThr_ne k f hx, ?_⟩
  unfold state
  rwa [setThr_self]

theorem moves_policyOnReady : Moves t k (k.policyOnReady x) :=
  ⟨policyOnReady_current k x, policyOnReady_idle k x, fun _ _ => by rw [policyOnReady_thr],
    Or.inl (by unfold state; rw [policyOnReady_thr])⟩

theorem moves_policyOnRemove : Moves t k (k.policyOnRemove x) :=
  ⟨policyOnRemove_current k x, policyOnRemove_idle k x, fun _ _ => by rw [policyOnRemove_thr],
    Or.inl (by unfold state; rw [policyOnRemove_thr])⟩

theorem moves_publishReady : Moves t k (k.publishReady t home me) := by
  unfold publishReady
  split_ifs
  · exact (moves_setThr (fun x => { x with queueCore := home, rqPrio := x.prio }) (Or.inl rfl)).trans
      moves_policyOnReady
  · cases t with
    | slot i =>
      have h := moves_setThr (k := k) (t := .slot i)
        (fun x => { x with queueCore := home, state := .handed }) (Or.inr rfl)
      exact h.trans ⟨rfl, rfl, fun _ _ => rfl, Or.inl rfl⟩
    | idle c => exact Moves.refl _ _

theorem moves_place : Moves t k (k.place t me).1 := by
  unfold place
  dsimp only
  split_ifs
  · exact Moves.refl _ _
  · exact moves_policyOnRemove.trans moves_publishReady

theorem moves_placeAndAsk : Moves t k (k.placeAndAsk t me) := by
  unfold placeAndAsk
  split_ifs
  · exact Moves.refl _ _
  · exact moves_place

/-! ### Publishing and placing -/

theorem Almost.publish (hn : n ≤ 2 ^ 15) (h : Almost k (some (.slot i)) none)
    (hl : home = me → k.Linked (.slot i)) (ha : ∃ c, k.placeableOn (.slot i) c = true) :
    Inv (k.publishReady (.slot i) home me) := by
  unfold publishReady
  split_ifs with hm
  · have hset := h.setSlot (i := i) (fun x => { x with queueCore := home, rqPrio := x.prio })
      (fun h0 => absurd rfl h0) (fun h0 => absurd rfl h0) (fun _ => rfl) (fun h0 => absurd rfl h0) (Or.inr ha)
    refine hset.link ?_ ?_
    · unfold Linked state
      rw [setThr_self]
      exact hl hm
    · intro _ _ _
      rw [setThr_self]
  · have hset := h.setSlot (i := i) (fun x => { x with queueCore := home, state := .handed })
      (fun h0 => absurd rfl h0) (fun h0 => absurd rfl h0) (fun _ => rfl) (fun h0 => absurd rfl h0) (Or.inr ha)
    refine hset.stageHand hn ?_ ?_
    · unfold state
      rw [setThr_self]
    · rw [setThr_self]

theorem state_policyOnRemove : (k.policyOnRemove x).state t = k.state t := by
  unfold state
  rw [policyOnRemove_thr]

theorem placeableOn_policyOnRemove : (k.policyOnRemove x).placeableOn t c = k.placeableOn t c := by
  unfold placeableOn
  rw [policyOnRemove_thr]

theorem Almost.move (hn : n ≤ 2 ^ 15) (h : Inv k) (hs : k.state (.slot i) = .ready) :
    Inv ((k.policyOnRemove (.slot i)).publishReady (.slot i) home me) := by
  refine (h.remove (Or.inl hs)).publish hn (fun _ => Or.inl ?_) ?_
  · rw [state_policyOnRemove]
    exact hs
  · obtain ⟨c, hc⟩ := h.placeable (i := i) (by rw [hs]; decide)
    exact ⟨c, by rwa [placeableOn_policyOnRemove]⟩

theorem Almost.place (hn : n ≤ 2 ^ 15) (h : Inv k) (hs : k.state (.slot i) = .ready) :
    Inv (k.place (.slot i) me).1 := by
  unfold Machine.place
  dsimp only
  split_ifs
  · exact h
  · exact h.move hn hs

theorem Almost.placeAndAsk (hn : n ≤ 2 ^ 15) (h : Inv k)
    (hs : k.state (.slot i) = .ready ∨ k.state (.slot i) = .handed) : Inv (k.placeAndAsk (.slot i) me) := by
  unfold Machine.placeAndAsk
  split_ifs with hh
  · exact h
  · exact h.place hn (hs.resolve_right hh)

/-- A thread that is not an idle one, because its mask names a core other than the one it is on. -/
theorem Almost.slot_of_roams (h : Inv k) (hl : k.Linked t) (hq : (k.thr t).queueCore = me)
    (hr : k.roams t me = true) : ∃ i, t = .slot i := by
  cases t with
  | slot i => exact ⟨i, rfl⟩
  | idle c =>
    obtain ⟨ha, hc⟩ := h.idleMask c hl
    rw [hc] at hq
    subst hq
    simp [roams, ha] at hr

theorem Almost.slot_of_placeable (h : Inv k) (hl : k.Linked t) (hq : (k.thr t).queueCore = me)
    (hp : k.placeableOn t dst = true) (hne : dst ≠ me) : ∃ i, t = .slot i := by
  cases t with
  | slot i => exact ⟨i, rfl⟩
  | idle c =>
    obtain ⟨ha, hc⟩ := h.idleMask c hl
    rw [hc] at hq
    subst hq
    have hv : dst.val ≠ c.val := fun h0 => hne (Fin.ext h0)
    rw [placeableOn, ha, BitVec.getLsbD_shiftLeft] at hp
    simp only [BitVec.getLsbD_one, Bool.and_eq_true, decide_eq_true_eq, Bool.not_eq_true',
      decide_eq_false_iff_not, not_lt] at hp
    omega

theorem Almost.linked_of_mem {p : Prio} (h : Inv k) (ht : t ∈ k.ready c p) :
    k.Linked t ∧ (k.thr t).queueCore = c ∧ (k.thr t).rqPrio = p :=
  (h.linked t (by simp) c p).1 ht

/-! ### Drops, declined threads and pushes -/

theorem dropScan_fields (k : Machine m n) (me : Fin m) : (k.dropScan me).thr = k.thr ∧ (k.dropScan me).ready = k.ready ∧
    (k.dropScan me).ring = k.ring ∧ (k.dropScan me).idle = k.idle ∧ (k.dropScan me).current = k.current := by
  unfold dropScan
  dsimp only
  refine List.foldlRecOn (motive := fun k' : Machine m n => k'.thr = k.thr ∧ k'.ready = k.ready ∧
    k'.ring = k.ring ∧ k'.idle = k.idle ∧ k'.current = k.current) _ _ ⟨rfl, rfl, rfl, rfl, rfl⟩ ?_
  intro k' h c _
  split_ifs
  · exact h
  · exact h

theorem seatLevel_fields (k : Machine m n) (t : Tid m n) (me : Fin m) : (k.seatLevel t me).thr = k.thr ∧
    (k.seatLevel t me).ready = k.ready ∧ (k.seatLevel t me).ring = k.ring ∧ (k.seatLevel t me).idle = k.idle ∧
    (k.seatLevel t me).current = k.current := by
  unfold seatLevel
  dsimp only
  split_ifs
  · exact dropScan_fields k me
  · exact ⟨rfl, rfl, rfl, rfl, rfl⟩

theorem Almost.seatLevel (h : Inv k) : Inv (k.seatLevel t me) := by
  obtain ⟨h1, h2, h3, h4, -⟩ := seatLevel_fields k t me
  exact h.congr h1 h2 h3 h4

theorem Almost.slot_of_declined (h : Inv k) (hd : k.declined me t = true) (hi : ∀ c, t = .idle c → c = me) :
    ∃ i, t = .slot i ∧ k.state (.slot i) = .ready := by
  simp only [declined, Bool.and_eq_true, decide_eq_true_eq] at hd
  obtain ⟨⟨⟨-, hs⟩, -⟩, hr⟩ := hd
  cases t with
  | slot i => exact ⟨i, rfl, hs⟩
  | idle c =>
    obtain rfl := hi c rfl
    obtain ⟨i, hi⟩ := h.slot_of_roams (Or.inl hs) (h.idleMask c (Or.inl hs)).2 hr
    cases hi

/-- What a walk over waiting threads other than `next` keeps. -/
structure Walked (next : Tid m n) (k k' : Machine m n) : Prop where
  inv : Inv k'
  shuffles : Shuffles k k'
  spared : k'.thr next = k.thr next

theorem Walked.refl (h : Inv k) (next : Tid m n) : Walked next k k := ⟨h, Shuffles.refl k, rfl⟩

theorem Walked.trans (h₁ : Walked t k k') (h₂ : Walked t k' k'') : Walked t k k'' :=
  ⟨h₂.inv, h₁.shuffles.trans h₂.shuffles, h₂.spared.trans h₁.spared⟩

theorem walked_place {next : Tid m n} (hn : n ≤ 2 ^ 15) (h : Inv k) (hs : k.state (.slot i) = .ready)
    (hne : next ≠ .slot i) : Walked next k (k.place (.slot i) me).1 :=
  ⟨h.place hn hs, moves_place.shuffles (Or.inl hs), moves_place.others next hne⟩

theorem walked_placeDeclined (hn : n ≤ 2 ^ 15) (h : Inv k) (next : Tid m n) (woken : Option (Tid m n))
    (me : Fin m) :
    Walked next k (k.placeDeclined next woken me) := by
  unfold placeDeclined
  refine List.foldlRecOn (motive := Walked next k) _ _ (Walked.refl h next) ?_
  intro k₁ h₁ p _
  -- The list walked is the one of the level's entry, where only this core's own idle can be.
  have hidle : ∀ t ∈ k₁.ready me p, ∀ c, t = .idle c → c = me := by
    rintro t ht c rfl
    obtain ⟨hl, hq, -⟩ := h₁.inv.linked_of_mem ht
    exact (h₁.inv.idleMask c hl).2.symm.trans hq
  refine List.foldlRecOn (motive := Walked next k) _ _ h₁ ?_
  intro k₂ h₂ t ht
  split_ifs with hd
  · obtain ⟨hd, -, hne⟩ := hd
    obtain ⟨i, rfl, hs⟩ := h₂.inv.slot_of_declined hd (hidle t ht)
    exact h₂.trans (walked_place hn h₂.inv hs (Ne.symm hne))
  · exact h₂

theorem pushCandidate_spec (h : k.policyPushCandidate me c = some t) :
    (∃ p, t ∈ k.ready me p) ∧ k.state t = .ready ∧ k.placeableOn t c = true := by
  unfold policyPushCandidate at h
  obtain ⟨p, -, hp⟩ := List.exists_of_findSome?_eq_some h
  have hmem := List.mem_of_find?_eq_some hp
  have hprop := List.find?_some hp
  simp only [Bool.and_eq_true, decide_eq_true_eq] at hprop
  obtain ⟨⟨⟨⟨-, hs⟩, -⟩, hpl⟩, -⟩ := hprop
  exact ⟨⟨p, hmem⟩, hs, hpl⟩

theorem pushTakeFrom_keeps (hn : n ≤ 2 ^ 15) (h : Inv k) (me c : Fin m) :
    Inv (k.pushTakeFrom me c) ∧ Shuffles k (k.pushTakeFrom me c) := by
  unfold pushTakeFrom
  split_ifs with hc
  · exact ⟨h, Shuffles.refl k⟩
  · dsimp only
    set k₁ : Machine m n := { k with
      dropTook := Function.update k.dropTook me (Function.update (k.dropTook me) c (k.dropAsked c me)) } with hk₁
    have h₁ : Inv k₁ := h.congr rfl rfl rfl rfl
    have hsh : Shuffles k k₁ := Shuffles.of_thr rfl rfl fun _ => ⟨rfl, rfl⟩
    rcases hres : k₁.policyPushCandidate me c with _ | t
    · exact ⟨h₁, hsh⟩
    · obtain ⟨⟨p, hmem⟩, hs, hpl⟩ := pushCandidate_spec hres
      obtain ⟨hl, hq, -⟩ := h₁.linked_of_mem hmem
      obtain ⟨i, rfl⟩ := h₁.slot_of_placeable hl hq hpl (fun h0 => hc (Or.inl h0))
      exact ⟨h₁.move hn hs,
        hsh.trans ((moves_policyOnRemove.trans moves_publishReady).shuffles (Or.inl hs))⟩

theorem pushTake_keeps (hn : n ≤ 2 ^ 15) (h : Inv k) (me : Fin m) : Inv (k.pushTake me) ∧ Shuffles k (k.pushTake me) := by
  unfold pushTake
  refine List.foldlRecOn (motive := fun k' => Inv k' ∧ Shuffles k k') _ _ ⟨h, Shuffles.refl k⟩ ?_
  rintro k' ⟨h', hsh⟩ c _
  obtain ⟨h'', hsh'⟩ := pushTakeFrom_keeps hn h' me c
  exact ⟨h'', hsh.trans hsh'⟩

/-! ### Draining -/

theorem Shuffles.of_only (hc : k'.current = k.current) (hi : k'.idle = k.idle)
    (ho : ∀ x, x ≠ t → k'.thr x = k.thr x) (ht : k.state t = .ready ∨ k.state t = .handed)
    (ht' : k'.state t = .ready ∨ k'.state t = .handed) : Shuffles k k' := by
  refine ⟨hc, hi, ?_, ?_⟩
  · intro x hr hh
    have hx : x ≠ t := by
      rintro rfl
      rcases ht with h0 | h0
      · exact hr h0
      · exact hh h0
    unfold state
    rw [ho x hx]
    exact ⟨rfl, rfl⟩
  · intro x hx
    by_cases hxt : x = t
    · subst hxt
      exact ht'
    · unfold state at hx ⊢
      rwa [ho x hxt]

theorem linkReady_state : (k.linkReady t home).state t = k.state t := by
  unfold linkReady state
  rw [policyOnReady_thr, setThr_self]

theorem homeFor_ne (hp : k.placeableOn t me = false) (ha : ∃ c, k.placeableOn t c = true) :
    k.homeFor t me ≠ me := by
  unfold homeFor
  rw [if_neg (by simp [hp])]
  obtain ⟨c, hc⟩ := ha
  rcases hres : (List.finRange m).find? fun c => k.placeableOn t c with _ | d
  · exact absurd hc (by simpa using List.find?_eq_none.1 hres c (List.mem_finRange c))
  · have hd : k.placeableOn t d = true := List.find?_some hres
    rw [Option.getD_some]
    rintro rfl
    rw [hp] at hd
    cases hd

theorem setState_self {st : TState} : (k.setState t st).state t = st := by
  unfold setState state
  rw [setThr_self]

theorem Almost.ready (hn : n ≤ 2 ^ 15) (h : Almost k (some (.slot i)) none)
    (ha : ∃ c, k.placeableOn (.slot i) c = true) (home me : Fin m) :
    Inv ((k.setState (.slot i) .ready).publishReady (.slot i) home me) := by
  have hset := h.setSlot (i := i) (fun x => { x with state := .ready }) (fun h0 => absurd rfl h0)
    (fun h0 => absurd rfl h0) (fun _ => rfl) (fun h0 => absurd rfl h0) (Or.inr ha)
  refine hset.publish hn (fun _ => Or.inl ?_) ?_
  · exact setState_self
  · obtain ⟨c, hc⟩ := ha
    refine ⟨c, ?_⟩
    unfold placeableOn setState
    rw [setThr_self]
    exact hc

theorem publishReady_self : k.publishReady t me me = k.linkReady t me := if_pos rfl

theorem setState_ne {st : TState} (h : x ≠ t) : (k.setState t st).thr x = k.thr x := setThr_ne k _ h

theorem apply_hand {p : Fin m} (hn : n ≤ 2 ^ 15) (h : Inv k)
    (hf : (k.ring p me).front? (ringDepth n) = some (.hand i)) (placeIt : Bool) :
    Inv ((k.retire p me).ringApply (.hand i) me placeIt) ∧
      Shuffles k ((k.retire p me).ringApply (.hand i) me placeIt) := by
  obtain ⟨hs, -⟩ := h.handed_of_front hn hf
  have h₁ := h.retireHand hn hf
  have ha : ∃ c, (k.retire p me).placeableOn (.slot i) c = true :=
    h.placeable (i := i) (by rw [hs]; decide)
  have hwait : k.state (.slot i) = .ready ∨ k.state (.slot i) = .handed := Or.inr hs
  unfold ringApply
  dsimp only
  by_cases hp : (k.retire p me).placeableOn (.slot i) me = true
  · rw [if_pos hp]
    have h₂ := h₁.ready hn ha me me
    rw [publishReady_self] at h₂
    have hs₂ : (((k.retire p me).setState (.slot i) .ready).linkReady (.slot i) me).state (.slot i) = .ready := by
      rw [linkReady_state, setState_self]
    have hmv : Moves (.slot i) ((k.retire p me).setState (.slot i) .ready)
        (((k.retire p me).setState (.slot i) .ready).linkReady (.slot i) me) := by
      rw [← publishReady_self]
      exact moves_publishReady
    have hsh : Shuffles k (((k.retire p me).setState (.slot i) .ready).linkReady (.slot i) me) :=
      Shuffles.of_only (t := .slot i) hmv.current hmv.idle
        (fun x hx => (hmv.others x hx).trans (setState_ne hx)) hwait (Or.inl hs₂)
    cases placeIt with
    | true => exact ⟨h₂.place hn hs₂, hsh.trans (moves_place.shuffles (Or.inl hs₂))⟩
    | false => exact ⟨h₂, hsh⟩
  · rw [if_neg hp]
    have hne := homeFor_ne (Bool.eq_false_iff.2 hp) ha
    have hmv : Moves (.slot i) (k.retire p me)
        ((k.retire p me).publishReady (.slot i) ((k.retire p me).homeFor (.slot i) me) me) := moves_publishReady
    refine ⟨h₁.publish hn (fun h0 => absurd h0 hne) ha, ?_⟩
    have hsh : Shuffles k (k.retire p me) := Shuffles.of_thr rfl rfl fun _ => ⟨rfl, rfl⟩
    exact hsh.trans (hmv.shuffles hwait)

theorem Almost.rekey {r : Option (Fin n)} (h : Almost k none r) (hl : k.Linked (.slot i)) (f : Tcb m → Tcb m)
    (hst : (f (k.thr (.slot i))).state = (k.thr (.slot i)).state)
    (haff : (f (k.thr (.slot i))).affinity = (k.thr (.slot i)).affinity)
    (howed : (f (k.thr (.slot i))).reseatOwed = (k.thr (.slot i)).reseatOwed)
    (hkey : (f (k.thr (.slot i))).rqPrio = (f (k.thr (.slot i))).prio) :
    Almost (((k.policyOnRemove (.slot i)).setThr (.slot i) f).policyOnReady (.slot i)) none r := by
  have hne : k.state (.slot i) ≠ .inactive := by
    rcases hl with h0 | h0 <;> rw [h0] <;> decide
  have ha : ∃ c : Fin m, (f (k.thr (.slot i))).affinity.getLsbD c = true := by
    rw [haff]
    exact h.placeable hne
  have hset := (h.remove hl).setSlot (i := i) f (fun h0 => absurd rfl h0) (fun h0 => absurd rfl h0)
    (fun _ => by rw [policyOnRemove_thr]; exact howed) (fun h0 => absurd rfl h0)
    (Or.inr (by rw [policyOnRemove_thr]; exact ha))
  refine hset.link ?_ ?_
  · unfold Linked state
    rw [setThr_self, policyOnRemove_thr, hst]
    exact hl
  · intro _ _ _
    rw [setThr_self, policyOnRemove_thr]
    exact hkey

theorem rekey_thr {f : Tcb m → Tcb m} :
    (((k.policyOnRemove t).setThr t f).policyOnReady t).thr t = f (k.thr t) := by
  rw [policyOnReady_thr, setThr_self, policyOnRemove_thr]

theorem rekey_ne {f : Tcb m → Tcb m} (h : x ≠ t) :
    (((k.policyOnRemove t).setThr t f).policyOnReady t).thr x = k.thr x := by
  rw [policyOnReady_thr, setThr_ne _ _ h, policyOnRemove_thr]

theorem Almost.clearOwed (h : Almost k none (some i)) :
    Almost (k.setThr (.slot i) fun x => { x with reseatOwed := false }) none (some i) :=
  h.setSlot _ (fun _ => ⟨by unfold Linked state; rw [setThr_self], fun _ => ⟨rfl, rfl⟩⟩)
    (fun _ => ⟨Iff.rfl, fun _ => rfl⟩) (fun h0 => absurd rfl h0) (fun _ h0 => absurd rfl h0) (h.admitted i)

theorem shuffles_setThr (f : Tcb m → Tcb m) (hs : (f (k.thr t)).state = (k.thr t).state)
    (hq : (f (k.thr t)).queueCore = (k.thr t).queueCore) : Shuffles k (k.setThr t f) := by
  refine Shuffles.of_thr rfl rfl fun x => ?_
  unfold state
  by_cases hx : x = t
  · subst hx
    rw [setThr_self]
    exact ⟨hs, hq⟩
  · rw [setThr_ne k f hx]
    exact ⟨rfl, rfl⟩

theorem shuffles_rekey (f : Tcb m → Tcb m) (hs : (f (k.thr t)).state = (k.thr t).state)
    (hq : (f (k.thr t)).queueCore = (k.thr t).queueCore) :
    Shuffles k (((k.policyOnRemove t).setThr t f).policyOnReady t) := by
  refine Shuffles.of_thr (by rw [policyOnReady_current, setThr_current, policyOnRemove_current])
    (by rw [policyOnReady_idle, setThr_idle, policyOnRemove_idle]) fun x => ?_
  unfold state
  by_cases hx : x = t
  · subst hx
    rw [rekey_thr]
    exact ⟨hs, hq⟩
  · rw [rekey_ne hx]
    exact ⟨rfl, rfl⟩

/-- The core a request finds its thread linked on clears the byte and keys the thread as its priority
    now says. -/
theorem apply_here (h : Almost k none (some i)) (hl : k.Linked (.slot i)) :
    ∃ k₃, k₃ = (if ((k.setThr (.slot i) fun x => { x with reseatOwed := false }).thr (.slot i)).prio ≠
          (k.thr (.slot i)).rqPrio then
        (((k.setThr (.slot i) fun x => { x with reseatOwed := false }).policyOnRemove (.slot i)).setThr
          (.slot i) fun x => { x with rqPrio := x.prio }).policyOnReady (.slot i)
      else k.setThr (.slot i) fun x => { x with reseatOwed := false }) ∧
      Inv k₃ ∧ Shuffles k k₃ ∧ k₃.Linked (.slot i) := by
  have h₂ := h.clearOwed
  have hsh : Shuffles k (k.setThr (.slot i) fun x => { x with reseatOwed := false }) :=
    shuffles_setThr _ rfl rfl
  have hl₂ : (k.setThr (.slot i) fun x => { x with reseatOwed := false }).Linked (.slot i) := by
    unfold Linked state
    rw [setThr_self]
    exact hl
  have ho₂ : ((k.setThr (.slot i) fun x => { x with reseatOwed := false }).thr (.slot i)).reseatOwed = false := by
    rw [setThr_self]
  have hk₂ : ((k.setThr (.slot i) fun x => { x with reseatOwed := false }).thr (.slot i)).rqPrio =
      (k.thr (.slot i)).rqPrio := by
    rw [setThr_self]
  generalize (k.setThr (.slot i) fun x => { x with reseatOwed := false }) = k₂ at h₂ hsh hl₂ ho₂ hk₂ ⊢
  refine ⟨_, rfl, ?_⟩
  split_ifs with hp
  · have h₃ := h₂.rekey hl₂ (fun x => { x with rqPrio := x.prio }) rfl rfl rfl rfl
    refine ⟨h₃.settle ?_ ?_, hsh.trans (shuffles_rekey _ rfl rfl), ?_⟩
    · rw [rekey_thr]
      exact ho₂
    · intro _
      rw [rekey_thr]
    · unfold Linked state
      rw [rekey_thr]
      exact hl₂
  · refine ⟨h₂.settle ho₂ fun _ => ?_, hsh, hl₂⟩
    rw [hk₂]
    exact (not_not.1 hp).symm

theorem apply_reseat {p : Fin m} (hn : n ≤ 2 ^ 15) (h : Inv k)
    (hf : (k.ring p me).front? (ringDepth n) = some (.reseat i)) (placeIt : Bool) :
    Inv ((k.retire p me).ringApply (.reseat i) me placeIt) ∧
      Shuffles k ((k.retire p me).ringApply (.reseat i) me placeIt) := by
  have howed : ((k.retire p me).thr (.slot i)).reseatOwed = true := by
    have h0 := h.owed_of_front hn hf
    exact h0
  have h₁ := h.retireReseat hn hf
  have hsh₁ : Shuffles k (k.retire p me) := Shuffles.of_thr rfl rfl fun _ => ⟨rfl, rfl⟩
  generalize k.retire p me = k₁ at h₁ hsh₁ howed ⊢
  unfold ringApply
  dsimp only
  by_cases hh : k₁.linkedHere (.slot i) me = true
  · rw [if_pos hh]
    have hl : k₁.Linked (.slot i) := by
      simp only [linkedHere, Bool.decide_and, Bool.and_eq_true, decide_eq_true_eq] at hh
      exact hh.1
    obtain ⟨k₃, hk₃, h₃, hsh₃, hl₃⟩ := apply_here h₁ hl
    rw [← hk₃]
    by_cases hr : k₃.state (.slot i) = .running
    · rw [if_pos hr]
      split_ifs
      · exact ⟨h₃.congr rfl rfl rfl rfl,
          (hsh₁.trans hsh₃).trans (Shuffles.of_thr rfl rfl fun _ => ⟨rfl, rfl⟩)⟩
      · exact ⟨h₃, hsh₁.trans hsh₃⟩
    · rw [if_neg hr]
      have hs₃ := hl₃.resolve_right hr
      cases placeIt with
      | true => exact ⟨h₃.place hn hs₃, (hsh₁.trans hsh₃).trans (moves_place.shuffles (Or.inl hs₃))⟩
      | false => exact ⟨h₃, hsh₁.trans hsh₃⟩
  · rw [if_neg hh]
    split_ifs with hl
    · exact ⟨h₁.stageReseat hn howed, hsh₁.trans (Shuffles.of_thr rfl rfl fun _ => ⟨rfl, rfl⟩)⟩
    · refine ⟨h₁.clearOwed.settle (by rw [setThr_self]) fun h0 => absurd ?_ hl, ?_⟩
      · unfold Linked state at h0 ⊢
        rwa [setThr_self] at h0
      · exact hsh₁.trans (shuffles_setThr _ rfl rfl)

theorem apply_keeps {p : Fin m} {e : Entry n} (hn : n ≤ 2 ^ 15) (h : Inv k) (hf : k.entryFrom p me = some e)
    (placeIt : Bool) : Inv ((k.retire p me).ringApply e me placeIt) ∧
      Shuffles k ((k.retire p me).ringApply e me placeIt) := by
  unfold entryFrom at hf
  split_ifs at hf
  cases e with
  | hand i => exact apply_hand hn h hf placeIt
  | reseat i => exact apply_reseat hn h hf placeIt

theorem drain_keeps (hn : n ≤ 2 ^ 15) (k : Machine m n) (me : Fin m) (placeIt : Bool) (p : Fin m)
    (left dry : Nat) (h : Inv k) :
    Inv (k.ringDrain me placeIt p left dry).1 ∧ Shuffles k (k.ringDrain me placeIt p left dry).1 := by
  induction k, p, left, dry using ringDrain.induct me placeIt with
  | case1 k p left dry hd he ih =>
    rw [ringDrain, if_pos hd, he]
    exact ih h
  | case2 k p dry hd e he =>
    rw [ringDrain, if_pos hd, he]
    exact ⟨h.congr rfl rfl rfl rfl, Shuffles.of_thr rfl rfl fun _ => ⟨rfl, rfl⟩⟩
  | case3 k p dry hd e he left ih =>
    rw [ringDrain, if_pos hd, he]
    obtain ⟨h', hsh⟩ := apply_keeps hn h he placeIt
    obtain ⟨h'', hsh'⟩ := ih h'
    exact ⟨h'', hsh.trans hsh'⟩
  | case4 k p left dry hd =>
    rw [ringDrain, if_neg hd]
    exact ⟨h.congr rfl rfl rfl rfl, Shuffles.of_thr rfl rfl fun _ => ⟨rfl, rfl⟩⟩

end Machine
end Smp
end KickOS
