import KickOS.Smp.Rings

/-! The ready lists and the rings agree with the threads.

The invariant is stated with up to two threads set aside, so that each write of the scheduler has one
lemma: a thread leaves its list or its ring, is changed while loose, and is linked or staged again. -/

namespace KickOS
namespace Smp
namespace Machine

variable {m n : Nat}

/-- The invariant, but for thread `l`, which is on no list and in no ring, and the request about `r`,
    which is in no ring. -/
structure Almost (k : Machine m n) (l : Option (Tid m n)) (r : Option (Fin n)) : Prop where
  linked : ∀ t, l ≠ some t → ∀ c p,
    t ∈ k.ready c p ↔ k.Linked t ∧ (k.thr t).queueCore = c ∧ (k.thr t).rqPrio = p
  loose : ∀ t, l = some t → ∀ c p, t ∉ k.ready c p
  nodup : ∀ c p, (k.ready c p).Nodup
  hand : ∀ i, l ≠ some (.slot i) →
    k.flight (.hand i) = if k.state (.slot i) = .handed then 1 else 0
  unhand : ∀ i, l = some (.slot i) → k.flight (.hand i) = 0
  toward : ∀ i p c, .hand i ∈ k.inFlight p c → (k.thr (.slot i)).queueCore = c
  reseat : ∀ i, r ≠ some i →
    k.flight (.reseat i) = if (k.thr (.slot i)).reseatOwed = true then 1 else 0
  unseat : ∀ i, r = some i → k.flight (.reseat i) = 0
  stale : ∀ i, l ≠ some (.slot i) → r ≠ some i → k.Linked (.slot i) →
    (k.thr (.slot i)).rqPrio ≠ (k.thr (.slot i)).prio → (k.thr (.slot i)).reseatOwed = true
  wf : ∀ p c, (k.ring p c).Wf wordMod (ringDepth n)
  pool : ∀ c, k.state (.idle c) ≠ .handed
  admitted : ∀ i, ((k.thr (.slot i)).affinity = 0#32 ∧ k.state (.slot i) = .inactive) ∨
    ∃ c, k.placeableOn (.slot i) c = true
  idleMask : ∀ c, k.Linked (.idle c) →
    (k.thr (.idle c)).affinity = 1#32 <<< c.val ∧ (k.thr (.idle c)).queueCore = c
  idleAt : ∀ c t, k.idle c = some t → t = .idle c ∧ k.Linked t

abbrev Inv (k : Machine m n) : Prop := Almost k none none

variable {k k' : Machine m n} {l : Option (Tid m n)} {r : Option (Fin n)} {t x : Tid m n} {i : Fin n}
  {c me home dst : Fin m} {e : Entry n}

namespace Almost

theorem congr (h : Almost k l r) (hthr : k'.thr = k.thr) (hready : k'.ready = k.ready)
    (hring : k'.ring = k.ring) (hidle : k'.idle = k.idle) : Almost k' l r := by
  cases k
  cases k'
  dsimp only at hthr hready hring hidle
  subst hthr hready hring hidle
  exact { h with }

theorem placeable (h : Almost k l r) (hs : k.state (.slot i) ≠ .inactive) :
    ∃ c, k.placeableOn (.slot i) c = true := by
  rcases h.admitted i with ⟨-, h0⟩ | h0
  · exact absurd h0 hs
  · exact h0

/-! ### Leaving and entering a ready list -/

theorem relist {l' : Option (Tid m n)} (h : Almost k l r) (hthr : k'.thr = k.thr)
    (hring : k'.ring = k.ring) (hidle : k'.idle = k.idle)
    (hlinked : ∀ t, l' ≠ some t → ∀ c p,
      t ∈ k'.ready c p ↔ k.Linked t ∧ (k.thr t).queueCore = c ∧ (k.thr t).rqPrio = p)
    (hloose : ∀ t, l' = some t → ∀ c p, t ∉ k'.ready c p) (hnodup : ∀ c p, (k'.ready c p).Nodup)
    (hhand : ∀ i, l' ≠ some (.slot i) →
      k.flight (.hand i) = if k.state (.slot i) = .handed then 1 else 0)
    (hunhand : ∀ i, l' = some (.slot i) → k.flight (.hand i) = 0)
    (hstale : ∀ i, l' ≠ some (.slot i) → r ≠ some i → k.Linked (.slot i) →
      (k.thr (.slot i)).rqPrio ≠ (k.thr (.slot i)).prio → (k.thr (.slot i)).reseatOwed = true) :
    Almost k' l' r := by
  cases k
  cases k'
  dsimp only at hthr hring hidle
  subst hthr hring hidle
  exact ⟨hlinked, hloose, hnodup, hhand, hunhand, h.toward, h.reseat, h.unseat, hstale, h.wf, h.pool,
    h.admitted, h.idleMask, h.idleAt⟩

theorem remove (h : Almost k none r) (ht : k.Linked t) : Almost (k.policyOnRemove t) (some t) r := by
  refine h.relist (policyOnRemove_thr k t) (policyOnRemove_ring k t) (policyOnRemove_idle k t) ?_ ?_
    (fun c p => nodup_policyOnRemove h.nodup) (fun i _ => h.hand i (by simp)) ?_
    (fun i _ => h.stale i (by simp))
  · intro x hx c p
    have hxt : x ≠ t := fun h0 => hx (h0 ▸ rfl)
    rw [mem_policyOnRemove h.nodup, h.linked x (by simp)]
    simp [hxt]
  · rintro x hx c p hmem
    cases hx
    rw [mem_policyOnRemove h.nodup] at hmem
    exact hmem.2 ⟨rfl, ((h.linked _ (by simp) c p).1 hmem.1).2⟩
  · intro i hi
    cases hi
    rw [h.hand i (by simp), if_neg]
    rcases ht with h0 | h0 <;> rw [h0] <;> decide

theorem link (h : Almost k (some t) r) (ht : k.Linked t)
    (hkey : ∀ i, t = .slot i → r ≠ some i → (k.thr t).rqPrio = (k.thr t).prio) :
    Almost (k.policyOnReady t) none r := by
  refine h.relist (policyOnReady_thr k t) (policyOnReady_ring k t) (policyOnReady_idle k t) ?_
    (fun x hx => absurd hx (by simp)) (fun c p => nodup_policyOnReady h.nodup (h.loose t rfl)) ?_
    (fun i hi => absurd hi (by simp)) ?_
  · intro x _ c p
    rw [mem_policyOnReady]
    by_cases hx : x = t
    · subst hx
      simp [h.loose x rfl, ht]
    · rw [h.linked x (fun h0 => hx (Option.some.inj h0).symm)]
      simp [hx]
  · intro i _
    by_cases hi : t = .slot i
    · subst hi
      rw [h.unhand i rfl, if_neg]
      rcases ht with h0 | h0 <;> rw [h0] <;> decide
    · exact h.hand i (fun h0 => hi (Option.some.inj h0))
  · intro i _ hr hl hne
    by_cases hi : t = .slot i
    · subst hi
      exact absurd (hkey i rfl hr) hne
    · exact h.stale i (fun h0 => hi (Option.some.inj h0)) hr hl hne

theorem detach (h : Almost k none r) (hl : ¬k.Linked t) (hh : k.state t ≠ .handed) :
    Almost k (some t) r := by
  refine h.relist rfl rfl rfl (fun x _ => h.linked x (by simp)) ?_ h.nodup (fun i _ => h.hand i (by simp)) ?_
    (fun i _ => h.stale i (by simp))
  · rintro x hx c p hmem
    cases hx
    exact hl ((h.linked _ (by simp) c p).1 hmem).1
  · intro i hi
    cases hi
    rw [h.hand i (by simp), if_neg hh]

theorem attach (h : Almost k (some t) r) (hl : ¬k.Linked t) (hh : k.state t ≠ .handed) :
    Almost k none r := by
  refine h.relist rfl rfl rfl ?_ (fun x hx => absurd hx (by simp)) h.nodup ?_
    (fun i hi => absurd hi (by simp)) ?_
  · intro x _ c p
    by_cases hx : x = t
    · subst hx
      simp [h.loose x rfl, hl]
    · exact h.linked x (fun h0 => hx (Option.some.inj h0).symm) c p
  · intro i _
    by_cases hi : t = .slot i
    · subst hi
      rw [h.unhand i rfl, if_neg hh]
    · exact h.hand i (fun h0 => hi (Option.some.inj h0))
  · intro i _ hr hl' hne
    by_cases hi : t = .slot i
    · subst hi
      exact absurd hl' hl
    · exact h.stale i (fun h0 => hi (Option.some.inj h0)) hr hl' hne

/-! ### Writing a thread's fields -/

theorem setSlot (h : Almost k l r) (f : Tcb m → Tcb m)
    (hlink : l ≠ some (.slot i) → ((k.setThr (.slot i) f).Linked (.slot i) ↔ k.Linked (.slot i)) ∧
      (k.Linked (.slot i) → (f (k.thr (.slot i))).queueCore = (k.thr (.slot i)).queueCore ∧
        (f (k.thr (.slot i))).rqPrio = (k.thr (.slot i)).rqPrio))
    (hhand : l ≠ some (.slot i) → ((f (k.thr (.slot i))).state = .handed ↔ k.state (.slot i) = .handed) ∧
      (k.state (.slot i) = .handed → (f (k.thr (.slot i))).queueCore = (k.thr (.slot i)).queueCore))
    (howed : r ≠ some i → (f (k.thr (.slot i))).reseatOwed = (k.thr (.slot i)).reseatOwed)
    (hstale : l ≠ some (.slot i) → r ≠ some i → (k.setThr (.slot i) f).Linked (.slot i) →
      (f (k.thr (.slot i))).rqPrio ≠ (f (k.thr (.slot i))).prio → (k.thr (.slot i)).reseatOwed = true)
    (hadm : ((f (k.thr (.slot i))).affinity = 0#32 ∧ (f (k.thr (.slot i))).state = .inactive) ∨
      ∃ c : Fin m, (f (k.thr (.slot i))).affinity.getLsbD c = true) :
    Almost (k.setThr (.slot i) f) l r := by
  have hL : ∀ x, x ≠ .slot i → ((k.setThr (.slot i) f).Linked x ↔ k.Linked x) := by
    intro x hx
    unfold Linked state
    rw [setThr_ne k f hx]
  have hself : (k.setThr (.slot i) f).thr (.slot i) = f (k.thr (.slot i)) := setThr_self k _ f
  have hne : ∀ j, j ≠ i → (k.setThr (.slot i) f).thr (.slot j) = k.thr (.slot j) :=
    fun j hj => setThr_ne k f (by simpa using hj)
  have hidle : ∀ c, (k.setThr (.slot i) f).thr (.idle c) = k.thr (.idle c) :=
    fun c => setThr_ne k f (by simp)
  refine ⟨?_, h.loose, h.nodup, ?_, h.unhand, ?_, ?_, h.unseat, ?_, h.wf, ?_, ?_, ?_, ?_⟩
  · intro x hx c p
    rw [setThr_ready, h.linked x hx]
    by_cases hxi : x = .slot i
    · subst hxi
      rw [(hlink hx).1, hself]
      constructor
      · rintro ⟨h1, h2, h3⟩
        exact ⟨h1, ((hlink hx).2 h1).1.trans h2, ((hlink hx).2 h1).2.trans h3⟩
      · rintro ⟨h1, h2, h3⟩
        exact ⟨h1, ((hlink hx).2 h1).1.symm.trans h2, ((hlink hx).2 h1).2.symm.trans h3⟩
    · rw [hL x hxi, setThr_ne k f hxi]
  · intro j hj
    show k.flight (.hand j) = _
    rw [h.hand j hj]
    by_cases hji : j = i
    · subst hji
      have hiff : k.state (.slot j) = .handed ↔ (k.setThr (.slot j) f).state (.slot j) = .handed := by
        unfold state
        rw [hself]
        exact (hhand hj).1.symm
      exact if_congr hiff rfl rfl
    · unfold state
      rw [hne j hji]
  · intro j p c hmem
    have hq := h.toward j p c hmem
    by_cases hji : j = i
    · subst hji
      rw [hself]
      have hpos : 0 < k.flight (.hand j) := flight_pos hmem
      have hlj : l ≠ some (.slot j) := fun h0 => by rw [h.unhand j h0] at hpos; omega
      have hst : k.state (.slot j) = .handed := by
        by_contra h0
        rw [h.hand j hlj, if_neg h0] at hpos
        omega
      exact ((hhand hlj).2 hst).trans hq
    · rw [hne j hji]
      exact hq
  · intro j hj
    show k.flight (.reseat j) = _
    rw [h.reseat j hj]
    by_cases hji : j = i
    · subst hji
      rw [hself, howed hj]
    · rw [hne j hji]
  · intro j hj hr hl' hkey
    by_cases hji : j = i
    · subst hji
      rw [hself] at hkey ⊢
      rw [howed hr]
      exact hstale hj hr hl' hkey
    · rw [hne j hji] at hkey ⊢
      exact h.stale j hj hr ((hL _ (by simpa using hji)).1 hl') hkey
  · intro c
    unfold state
    rw [hidle]
    exact h.pool c
  · intro j
    unfold state placeableOn
    by_cases hji : j = i
    · subst hji
      rw [hself]
      exact hadm
    · rw [hne j hji]
      exact h.admitted j
  · intro c hc
    rw [hidle]
    exact h.idleMask c ((hL _ (by simp)).1 hc)
  · intro c x hx
    obtain ⟨h1, h2⟩ := h.idleAt c x hx
    exact ⟨h1, (hL x (by rw [h1]; simp)).2 h2⟩

theorem setIdle (h : Almost k l r) (f : Tcb m → Tcb m)
    (hlink : l ≠ some (.idle c) → ((k.setThr (.idle c) f).Linked (.idle c) ↔ k.Linked (.idle c)) ∧
      (k.Linked (.idle c) → (f (k.thr (.idle c))).queueCore = (k.thr (.idle c)).queueCore ∧
        (f (k.thr (.idle c))).rqPrio = (k.thr (.idle c)).rqPrio))
    (hpool : (f (k.thr (.idle c))).state ≠ .handed)
    (hmask : (k.setThr (.idle c) f).Linked (.idle c) →
      (f (k.thr (.idle c))).affinity = 1#32 <<< c.val ∧ (f (k.thr (.idle c))).queueCore = c)
    (hidle : k.idle c = some (.idle c) → (k.setThr (.idle c) f).Linked (.idle c)) :
    Almost (k.setThr (.idle c) f) l r := by
  have hL : ∀ x, x ≠ .idle c → ((k.setThr (.idle c) f).Linked x ↔ k.Linked x) := by
    intro x hx
    unfold Linked state
    rw [setThr_ne k f hx]
  have hself : (k.setThr (.idle c) f).thr (.idle c) = f (k.thr (.idle c)) := setThr_self k _ f
  have hslot : ∀ j, (k.setThr (.idle c) f).thr (.slot j) = k.thr (.slot j) :=
    fun j => setThr_ne k f (by simp)
  have hstate : ∀ j, (k.setThr (.idle c) f).state (.slot j) = k.state (.slot j) := by
    intro j
    unfold state
    rw [hslot]
  refine ⟨?_, h.loose, h.nodup, ?_, h.unhand, ?_, ?_, h.unseat, ?_, h.wf, ?_, ?_, ?_, ?_⟩
  · intro x hx d p
    rw [setThr_ready, h.linked x hx]
    by_cases hxi : x = .idle c
    · subst hxi
      rw [(hlink hx).1, hself]
      constructor
      · rintro ⟨h1, h2, h3⟩
        exact ⟨h1, ((hlink hx).2 h1).1.trans h2, ((hlink hx).2 h1).2.trans h3⟩
      · rintro ⟨h1, h2, h3⟩
        exact ⟨h1, ((hlink hx).2 h1).1.symm.trans h2, ((hlink hx).2 h1).2.symm.trans h3⟩
    · rw [hL x hxi, setThr_ne k f hxi]
  · intro j hj
    rw [hstate]
    exact h.hand j hj
  · intro j p d hmem
    rw [hslot]
    exact h.toward j p d hmem
  · intro j hj
    rw [hslot]
    exact h.reseat j hj
  · intro j hj hr hl'
    rw [hslot]
    exact h.stale j hj hr ((hL _ (by simp)).1 hl')
  · intro d
    by_cases hd : d = c
    · subst hd
      unfold state
      rw [hself]
      exact hpool
    · unfold state
      rw [setThr_ne k f (by simpa using hd)]
      exact h.pool d
  · intro j
    rw [hstate, hslot]
    unfold placeableOn
    rw [hslot]
    exact h.admitted j
  · intro d hl'
    by_cases hd : d = c
    · subst hd
      rw [hself]
      exact hmask hl'
    · rw [setThr_ne k f (by simpa using hd)]
      exact h.idleMask d ((hL _ (by simpa using hd)).1 hl')
  · intro d x hx
    obtain ⟨rfl, h2⟩ := h.idleAt d x hx
    refine ⟨rfl, ?_⟩
    by_cases hd : d = c
    · subst hd
      exact hidle hx
    · exact (hL _ (by simpa using hd)).2 h2

/-! ### The rings -/

theorem flight_le_one (h : Almost k l r) (e : Entry n) : k.flight e ≤ 1 := by
  cases e with
  | hand i =>
    by_cases hl : l = some (.slot i)
    · rw [h.unhand i hl]
      omega
    · rw [h.hand i hl]
      split_ifs <;> omega
  | reseat i =>
    by_cases hr : r = some i
    · rw [h.unseat i hr]
      omega
    · rw [h.reseat i hr]
      split_ifs <;> omega

theorem inFlight_nodup (h : Almost k l r) (p c : Fin m) : (k.inFlight p c).Nodup :=
  List.nodup_iff_count_le_one.2 fun e => (k.count_le_flight p c e).trans (h.flight_le_one e)

theorem inFlight_length (h : Almost k l r) (p c : Fin m) : (k.inFlight p c).length ≤ 2 * n :=
  (h.inFlight_nodup p c).length_le_card.trans card_entry

theorem room (hn : n ≤ 2 ^ 15) (h : Almost k l r) (he : k.flight e = 0) (p c : Fin m) :
    (k.inFlight p c).length < ringDepth n := by
  have hmem : e ∉ k.inFlight p c := fun h0 => by
    have := flight_pos h0
    omega
  have hcard := (List.nodup_cons.2 ⟨hmem, h.inFlight_nodup p c⟩).length_le_card.trans card_entry
  rw [List.length_cons] at hcard
  have hdepth := (ringDepth_spec hn).1
  omega

theorem inFlight_stage (hn : n ≤ 2 ^ 15) (h : Almost k l r) (he : k.flight e = 0) (me dst : Fin m) :
    (k.ringStage me dst e).inFlight =
      Function.update k.inFlight me (Function.update (k.inFlight me) dst (k.inFlight me dst ++ [e])) := by
  have hstage := Lib.Ring.stage_contents (e := e) (ringDepth_fits hn) (h.wf me dst) (h.room hn he me dst)
  funext p c
  unfold inFlight
  by_cases hp : p = me
  · subst hp
    by_cases hc : c = dst
    · subst hc
      simpa [ringStage] using hstage
    · simp [ringStage, hc]
  · simp [ringStage, hp]

theorem flight_stage (hn : n ≤ 2 ^ 15) (h : Almost k l r) (he : k.flight e = 0) (e' : Entry n) :
    (k.ringStage me dst e).flight e' = k.flight e' + if e = e' then 1 else 0 := by
  have hup := flight_of_update (h.inFlight_stage hn he me dst) e'
  rw [List.count_append, List.count_singleton] at hup
  simp only [beq_iff_eq] at hup
  omega

theorem mem_stage (hn : n ≤ 2 ^ 15) (h : Almost k l r) (he : k.flight e = 0) {e' : Entry n} {p : Fin m} :
    e' ∈ (k.ringStage me dst e).inFlight p c ↔ e' ∈ k.inFlight p c ∨ (e' = e ∧ p = me ∧ c = dst) := by
  rw [h.inFlight_stage hn he me dst]
  by_cases hp : p = me
  · subst hp
    by_cases hc : c = dst
    · subst hc
      simp
    · simp [hc]
  · simp [hp]

theorem wf_stage (hn : n ≤ 2 ^ 15) (h : Almost k l r) (he : k.flight e = 0) (p c : Fin m) :
    ((k.ringStage me dst e).ring p c).Wf wordMod (ringDepth n) := by
  by_cases hp : p = me
  · subst hp
    by_cases hc : c = dst
    · subst hc
      have hwf := (h.wf p c).stage (e := e) (ringDepth_fits hn) (h.room hn he p c)
      simpa [ringStage] using hwf
    · simpa [ringStage, hc] using h.wf p c
  · simpa [ringStage, hp] using h.wf p c

theorem stageHand (hn : n ≤ 2 ^ 15) (h : Almost k (some (.slot i)) r) (hs : k.state (.slot i) = .handed)
    (hq : (k.thr (.slot i)).queueCore = dst) : Almost (k.ringStage me dst (.hand i)) none r := by
  have he := h.unhand i rfl
  have hlinked : ¬k.Linked (.slot i) := by
    rintro (h0 | h0) <;> rw [hs] at h0 <;> cases h0
  refine ⟨?_, fun x hx => absurd hx (by simp), h.nodup, ?_, fun j hj => absurd hj (by simp), ?_, ?_, ?_, ?_,
    h.wf_stage hn he, h.pool, h.admitted, h.idleMask, h.idleAt⟩
  · intro x _ c p
    by_cases hx : x = .slot i
    · subst hx
      exact iff_of_false (h.loose _ rfl c p) (fun h0 => hlinked h0.1)
    · exact h.linked x (fun h0 => hx (Option.some.inj h0).symm) c p
  · intro j _
    rw [h.flight_stage hn he]
    by_cases hj : j = i
    · subst hj
      have hs' : (k.ringStage me dst (.hand j)).state (.slot j) = .handed := hs
      rw [he, if_pos rfl, if_pos hs']
    · rw [if_neg (by simpa using Ne.symm hj), Nat.add_zero]
      exact h.hand j (by simpa using Ne.symm hj)
  · intro j p c hmem
    rcases (h.mem_stage hn he).1 hmem with h0 | ⟨h0, -, rfl⟩
    · exact h.toward j p c h0
    · cases h0
      exact hq
  · intro j hj
    rw [h.flight_stage hn he, if_neg (by simp), Nat.add_zero]
    exact h.reseat j hj
  · intro j hj
    rw [h.flight_stage hn he, if_neg (by simp), Nat.add_zero]
    exact h.unseat j hj
  · intro j _ hr hl hkey
    by_cases hj : j = i
    · subst hj
      exact absurd hl hlinked
    · exact h.stale j (by simpa using Ne.symm hj) hr hl hkey

theorem stageReseat (hn : n ≤ 2 ^ 15) (h : Almost k none (some i))
    (ho : (k.thr (.slot i)).reseatOwed = true) : Inv (k.ringStage me dst (.reseat i)) := by
  have he := h.unseat i rfl
  refine ⟨h.linked, h.loose, h.nodup, ?_, fun j hj => absurd hj (by simp), ?_, ?_,
    fun j hj => absurd hj (by simp), ?_, h.wf_stage hn he, h.pool, h.admitted, h.idleMask, h.idleAt⟩
  · intro j hj
    rw [h.flight_stage hn he, if_neg (by simp), Nat.add_zero]
    exact h.hand j hj
  · intro j p c hmem
    rcases (h.mem_stage hn he).1 hmem with h0 | ⟨h0, -, -⟩
    · exact h.toward j p c h0
    · cases h0
  · intro j _
    rw [h.flight_stage hn he]
    by_cases hj : j = i
    · subst hj
      have ho' : ((k.ringStage me dst (.reseat j)).thr (.slot j)).reseatOwed = true := ho
      rw [he, if_pos rfl, if_pos ho']
    · rw [if_neg (by simpa using Ne.symm hj), Nat.add_zero]
      exact h.reseat j (by simpa using Ne.symm hj)
  · intro j hl _ hlk hkey
    by_cases hj : j = i
    · subst hj
      exact ho
    · exact h.stale j hl (by simpa using Ne.symm hj) hlk hkey

theorem settle (h : Almost k none (some i)) (ho : (k.thr (.slot i)).reseatOwed = false)
    (hkey : k.Linked (.slot i) → (k.thr (.slot i)).rqPrio = (k.thr (.slot i)).prio) : Inv k := by
  refine ⟨h.linked, h.loose, h.nodup, h.hand, h.unhand, h.toward, ?_, fun j hj => absurd hj (by simp), ?_,
    h.wf, h.pool, h.admitted, h.idleMask, h.idleAt⟩
  · intro j _
    by_cases hj : j = i
    · subst hj
      rw [h.unseat j rfl, if_neg (by simp [ho])]
    · exact h.reseat j (by simpa using Ne.symm hj)
  · intro j hl _ hlk hne
    by_cases hj : j = i
    · subst hj
      exact absurd (hkey hlk) hne
    · exact h.stale j hl (by simpa using Ne.symm hj) hlk hne

theorem unsettle (h : Inv k) (ho : (k.thr (.slot i)).reseatOwed = false) : Almost k none (some i) := by
  refine ⟨h.linked, h.loose, h.nodup, h.hand, h.unhand, h.toward, fun j _ => h.reseat j (by simp), ?_,
    fun j hl _ => h.stale j hl (by simp), h.wf, h.pool, h.admitted, h.idleMask, h.idleAt⟩
  intro j hj
  cases hj
  rw [h.reseat _ (by simp), if_neg (by simp [ho])]

section Drain

variable {p : Fin m}

theorem inFlight_retire (hn : n ≤ 2 ^ 15) (h : Almost k l r)
    (hf : (k.ring p c).front? (ringDepth n) = some e) :
    ∃ rest, k.inFlight p c = e :: rest ∧
      (k.retire p c).inFlight = Function.update k.inFlight p (Function.update (k.inFlight p) c rest) := by
  refine ⟨_, Lib.Ring.retire_contents (ringDepth_fits hn) (h.wf p c) hf, ?_⟩
  funext q d
  unfold inFlight
  by_cases hq : q = p
  · subst hq
    by_cases hd : d = c
    · subst hd
      simp [retire]
    · simp [retire, hd]
  · simp [retire, hq]

theorem flight_retire (hn : n ≤ 2 ^ 15) (h : Almost k l r)
    (hf : (k.ring p c).front? (ringDepth n) = some e) (e' : Entry n) :
    (k.retire p c).flight e' + (if e = e' then 1 else 0) = k.flight e' := by
  obtain ⟨rest, hcons, hup⟩ := h.inFlight_retire hn hf
  have hfl := flight_of_update hup e'
  rw [hcons, List.count_cons] at hfl
  simp only [beq_iff_eq] at hfl
  omega

theorem front_mem (hn : n ≤ 2 ^ 15) (h : Almost k l r)
    (hf : (k.ring p c).front? (ringDepth n) = some e) : e ∈ k.inFlight p c := by
  obtain ⟨rest, hcons, -⟩ := h.inFlight_retire hn hf
  rw [hcons]
  exact List.mem_cons_self

theorem mem_retire (hn : n ≤ 2 ^ 15) (h : Almost k l r)
    (hf : (k.ring p c).front? (ringDepth n) = some e) {e' : Entry n} {q d : Fin m}
    (hmem : e' ∈ (k.retire p c).inFlight q d) : e' ∈ k.inFlight q d := by
  obtain ⟨rest, hcons, hup⟩ := h.inFlight_retire hn hf
  rw [hup] at hmem
  by_cases hq : q = p
  · subst hq
    by_cases hd : d = c
    · subst hd
      rw [hcons]
      exact List.mem_cons_of_mem _ (by simpa using hmem)
    · simpa [hd] using hmem
  · simpa [hq] using hmem

theorem wf_retire (h : Almost k l r) (hf : (k.ring p c).front? (ringDepth n) = some e) (q d : Fin m) :
    ((k.retire p c).ring q d).Wf wordMod (ringDepth n) := by
  by_cases hq : q = p
  · subst hq
    by_cases hd : d = c
    · subst hd
      simpa [retire] using (h.wf q d).retire hf
    · simpa [retire, hd] using h.wf q d
  · simpa [retire, hq] using h.wf q d

theorem handed_of_front (hn : n ≤ 2 ^ 15) (h : Inv k)
    (hf : (k.ring p c).front? (ringDepth n) = some (.hand i)) :
    k.state (.slot i) = .handed ∧ (k.thr (.slot i)).queueCore = c := by
  have hmem := h.front_mem hn hf
  refine ⟨?_, h.toward i p c hmem⟩
  by_contra h0
  have hfl := h.hand i (by simp)
  rw [if_neg h0] at hfl
  have := flight_pos hmem
  omega

theorem retireHand (hn : n ≤ 2 ^ 15) (h : Inv k)
    (hf : (k.ring p c).front? (ringDepth n) = some (.hand i)) :
    Almost (k.retire p c) (some (.slot i)) none := by
  obtain ⟨hs, -⟩ := h.handed_of_front hn hf
  have hlinked : ¬k.Linked (.slot i) := by
    rintro (h0 | h0) <;> rw [hs] at h0 <;> cases h0
  have hfl := h.flight_retire hn hf
  refine ⟨fun x _ => h.linked x (by simp), ?_, h.nodup, ?_, ?_,
    fun j q d hmem => h.toward j q d (h.mem_retire hn hf hmem), ?_, fun j hj => absurd hj (by simp),
    fun j _ => h.stale j (by simp), h.wf_retire hf, h.pool, h.admitted, h.idleMask, h.idleAt⟩
  · rintro x hx c p hmem
    cases hx
    exact hlinked ((h.linked _ (by simp) c p).1 hmem).1
  · intro j hj
    have hj' := hfl (.hand j)
    rw [if_neg (by simpa using hj), Nat.add_zero] at hj'
    rw [hj']
    exact h.hand j (by simp)
  · intro j hj
    cases hj
    have hj' := hfl (.hand i)
    have hone := h.flight_le_one (.hand i)
    rw [if_pos rfl] at hj'
    omega
  · intro j hj
    have hj' := hfl (.reseat j)
    rw [if_neg (by simp), Nat.add_zero] at hj'
    rw [hj']
    exact h.reseat j hj

theorem owed_of_front (hn : n ≤ 2 ^ 15) (h : Inv k)
    (hf : (k.ring p c).front? (ringDepth n) = some (.reseat i)) :
    (k.thr (.slot i)).reseatOwed = true := by
  by_contra h0
  have hfl := h.reseat i (by simp)
  rw [if_neg h0] at hfl
  have := flight_pos (h.front_mem hn hf)
  omega

theorem retireReseat (hn : n ≤ 2 ^ 15) (h : Inv k)
    (hf : (k.ring p c).front? (ringDepth n) = some (.reseat i)) : Almost (k.retire p c) none (some i) := by
  have hfl := h.flight_retire hn hf
  refine ⟨h.linked, h.loose, h.nodup, ?_, fun j hj => absurd hj (by simp),
    fun j q d hmem => h.toward j q d (h.mem_retire hn hf hmem), ?_, ?_,
    fun j hl _ => h.stale j hl (by simp), h.wf_retire hf, h.pool, h.admitted, h.idleMask, h.idleAt⟩
  · intro j hj
    have hj' := hfl (.hand j)
    rw [if_neg (by simp), Nat.add_zero] at hj'
    rw [hj']
    exact h.hand j hj
  · intro j hj
    have hj' := hfl (.reseat j)
    rw [if_neg (by simpa using hj), Nat.add_zero] at hj'
    rw [hj']
    exact h.reseat j (by simp)
  · intro j hj
    cases hj
    have hj' := hfl (.reseat i)
    have hone := h.flight_le_one (.reseat i)
    rw [if_pos rfl] at hj'
    omega

theorem flush (h : Inv k) : Inv (k.flush me) := by
  have hring : ∀ p c, (k.flush me).ring p c = k.ring p c ∨ (k.flush me).ring p c = (k.ring p c).publish := by
    intro p c
    by_cases hp : p = me
    · subst hp
      by_cases hr : k.raise p c
      · exact Or.inr (by simp [Machine.flush, hr])
      · exact Or.inl (by simp [Machine.flush, hr])
    · exact Or.inl (by simp [Machine.flush, hp])
  have hfl : (k.flush me).inFlight = k.inFlight := by
    funext p c
    unfold inFlight
    rcases hring p c with h0 | h0 <;> rw [h0]
    exact Lib.Ring.publish_contents
  have hflight : ∀ e, (k.flush me).flight e = k.flight e := by
    intro e
    unfold flight
    rw [hfl]
  refine ⟨h.linked, h.loose, h.nodup, fun i hi => (hflight _).trans (h.hand i hi),
    fun i hi => absurd hi (by simp), ?_, fun i hi => (hflight _).trans (h.reseat i hi),
    fun i hi => absurd hi (by simp), h.stale, ?_, h.pool, h.admitted, h.idleMask, h.idleAt⟩
  · intro i p c hmem
    rw [hfl] at hmem
    exact h.toward i p c hmem
  · intro p c
    rcases hring p c with h0 | h0 <;> rw [h0]
    · exact h.wf p c
    · exact (h.wf p c).publish

end Drain

end Almost
end Machine
end Smp
end KickOS
