import KickOS.Smp.Passes
import KickOS.Smp.Protocol

/-! What a core runs, across passes and the calls of a span. -/

namespace KickOS
namespace Smp
namespace Machine

variable {m n : Nat} {k k' : Machine m n} {t x : Tid m n} {i : Fin n} {c me home dst : Fin m}

/-- What core `c` runs is running, and on its own structure. -/
def Seated (k : Machine m n) (c : Fin m) : Prop :=
  ∀ t, k.current c = some t → k.state t = .running ∧ (k.thr t).queueCore = c

/-- Between two spans. -/
structure Good (k : Machine m n) : Prop where
  inv : Inv k
  seated : ∀ c, Seated k c
  started : ∀ c, k.current c ≠ none → k.idle c ≠ none

/-- Inside a span of core `me`, whose own thread may have been parked or have exited, with `woken` the
    threads readied so far. -/
structure Held (me : Fin m) (parked : Bool) (k : Machine m n) (woken : List (Fin n)) : Prop where
  inv : Inv k
  seated : ∀ c, c ≠ me → Seated k c
  mine : ∀ t, k.current me = some t → (k.state t = .running ∧ (k.thr t).queueCore = me) ∨
    (parked = true ∧ (k.state t = .blocked ∨ k.state t = .exited))
  started : ∀ c, k.current c ≠ none → k.idle c ≠ none
  woken : ∀ i ∈ woken, k.state (.slot i) = .ready ∨ k.state (.slot i) = .handed

variable {parked : Bool} {w : List (Fin n)}

theorem Seated.shuffles (h : Seated k c) (hsh : Shuffles k k') : Seated k' c := by
  intro t ht
  rw [hsh.current] at ht
  obtain ⟨hs, hq⟩ := h t ht
  obtain ⟨hs', hq'⟩ := hsh.still t (by rw [hs]; decide) (by rw [hs]; decide)
  exact ⟨hs'.trans hs, hq'.trans hq⟩

theorem Good.shuffles (h : Good k) (h' : Inv k') (hsh : Shuffles k k') : Good k' :=
  ⟨h', fun c => (h.seated c).shuffles hsh, by rw [hsh.current, hsh.idle]; exact h.started⟩

theorem Held.shuffles (h : Held me parked k w) (h' : Inv k') (hsh : Shuffles k k') : Held me parked k' w := by
  refine ⟨h', fun c hc => (h.seated c hc).shuffles hsh, ?_, by rw [hsh.current, hsh.idle]; exact h.started,
    fun i hi => hsh.waiting _ (h.woken i hi)⟩
  intro t ht
  rw [hsh.current] at ht
  rcases h.mine t ht with ⟨hs, hq⟩ | ⟨hp, hs⟩
  · obtain ⟨hs', hq'⟩ := hsh.still t (by rw [hs]; decide) (by rw [hs]; decide)
    exact Or.inl ⟨hs'.trans hs, hq'.trans hq⟩
  · have hne : k.state t ≠ .ready ∧ k.state t ≠ .handed := by
      rcases hs with h0 | h0 <;> rw [h0] <;> decide
    rw [(hsh.still t hne.1 hne.2).1]
    exact Or.inr ⟨hp, hs⟩

theorem Good.held (h : Good k) (me : Fin m) (parked : Bool) : Held me parked k [] :=
  ⟨h.inv, fun c _ => h.seated c, fun t ht => Or.inl (h.seated me t ht), h.started, by simp⟩

theorem Held.good (h : Held me false k w) : Good k := by
  refine ⟨h.inv, fun c => ?_, h.started⟩
  by_cases hc : c = me
  · subst hc
    intro t ht
    rcases h.mine t ht with h0 | ⟨h0, -⟩
    · exact h0
    · cases h0
  · exact h.seated c hc

theorem Held.forget (h : Held me parked k w) : Held me parked k [] :=
  ⟨h.inv, h.seated, h.mine, h.started, by simp⟩

/-! ### A pass -/

theorem pick_spec (h : Inv k) (hp : k.policyPickNext me = some t) :
    k.Linked t ∧ (k.thr t).queueCore = me := by
  unfold policyPickNext at hp
  rcases Option.or_eq_some_iff.1 hp with h0 | ⟨-, h0⟩
  · obtain ⟨p, -, hp⟩ := List.exists_of_findSome?_eq_some h0
    obtain ⟨hl, hq, -⟩ := h.linked_of_mem (List.mem_of_find?_eq_some hp)
    exact ⟨hl, hq⟩
  · obtain ⟨rfl, hl⟩ := h.idleAt me t h0
    exact ⟨hl, (h.idleMask me hl).2⟩

theorem pick_isSome (h : k.idle me ≠ none) : k.policyPickNext me ≠ none := by
  intro h0
  unfold policyPickNext at h0
  exact h (Option.or_eq_none_iff.1 h0).2

theorem Almost.setLinked (h : Inv k) (hl : k.Linked t) {st : TState} (hst : st = .ready ∨ st = .running) :
    Inv (k.setState t st) := by
  have hl' : (k.setState t st).Linked t := by
    unfold Linked
    rw [setState_self]
    exact hst
  have hne : st ≠ .handed := by
    rcases hst with rfl | rfl <;> decide
  cases t with
  | slot i =>
    have hnh : k.state (.slot i) ≠ .handed := by
      rcases hl with h0 | h0 <;> rw [h0] <;> decide
    have hni : k.state (.slot i) ≠ .inactive := by
      rcases hl with h0 | h0 <;> rw [h0] <;> decide
    exact h.setSlot _ (fun _ => ⟨iff_of_true hl' hl, fun _ => ⟨rfl, rfl⟩⟩)
      (fun _ => ⟨iff_of_false hne hnh, fun h0 => absurd h0 hnh⟩) (fun _ => rfl)
      (fun _ _ _ hk => h.stale i (by simp) (by simp) hl hk) (Or.inr (h.placeable hni))
  | idle c =>
    exact h.setIdle _ (fun _ => ⟨iff_of_true hl' hl, fun _ => ⟨rfl, rfl⟩⟩) hne
      (fun _ => h.idleMask c hl) (fun _ => hl')

theorem Almost.seatRunning (h : Inv k) (hl : k.Linked t) : Inv (k.seatRunning t me) := by
  have h' : Inv { k with current := Function.update k.current me (some t) } := h.congr rfl rfl rfl rfl
  exact h'.setLinked hl (Or.inr rfl)

theorem bookOut_ne (h : x ≠ t) : (k.bookOut t me).thr x = k.thr x := by
  unfold bookOut
  split_ifs
  · exact setState_ne h
  · exact setState_ne h
  · rfl

theorem bookOut_ready (h : k.state t = .running) : (k.bookOut t me).state t = .ready := by
  unfold bookOut
  rw [if_pos h]
  split_ifs
  · exact setState_self
  · exact setState_self

theorem bookOut_fields (k : Machine m n) (t : Tid m n) (me : Fin m) :
    (k.bookOut t me).current = k.current ∧ (k.bookOut t me).idle = k.idle := by
  unfold bookOut
  split_ifs
  · exact ⟨rfl, rfl⟩
  · exact ⟨rfl, rfl⟩
  · exact ⟨rfl, rfl⟩

theorem Almost.bookOut (h : Inv k) : Inv (k.bookOut t me) := by
  unfold Machine.bookOut
  split_ifs with hs
  · exact (h.setLinked (Or.inr hs) (Or.inl rfl)).congr rfl rfl rfl rfl
  · exact h.setLinked (Or.inr hs) (Or.inl rfl)
  · exact h

theorem seatRunning_ne (h : x ≠ t) : (k.seatRunning t me).thr x = k.thr x := setState_ne h

theorem seatRunning_good (h : Inv k) (hl : k.Linked t) (hq : (k.thr t).queueCore = me)
    (hseated : ∀ c, c ≠ me → Seated k c) (hidle : k.idle me ≠ none)
    (hstarted : ∀ c, k.current c ≠ none → k.idle c ≠ none) : Good (k.seatRunning t me) := by
  refine ⟨h.seatRunning hl, fun c x hx => ?_, fun c hc => ?_⟩
  · by_cases hcm : c = me
    · subst hcm
      have h0 : Function.update k.current c (some t) c = some x := hx
      rw [Function.update_self] at h0
      cases h0
      refine ⟨setState_self, ?_⟩
      unfold Machine.seatRunning setState
      rw [setThr_self]
      exact hq
    · have h0 : Function.update k.current me (some t) c = some x := hx
      rw [Function.update_of_ne hcm] at h0
      obtain ⟨hs, hqc⟩ := hseated c hcm x h0
      -- A thread a peer runs is on the peer's structure.
      have hxt : x ≠ t := by
        rintro rfl
        exact hcm (hqc.symm.trans hq)
      unfold state
      rw [seatRunning_ne hxt]
      exact ⟨hs, hqc⟩
  · show k.idle c ≠ none
    by_cases hcm : c = me
    · subst hcm
      exact hidle
    · refine hstarted c ?_
      have h0 : Function.update k.current me (some t) c ≠ none := hc
      rwa [Function.update_of_ne hcm] at h0

theorem Held.seat {prev next : Tid m n} (h : Held me parked k w) (hl : k.Linked next)
    (hq : (k.thr next).queueCore = me) (hcur : k.current me = some prev) (hne : next ≠ prev) :
    Good ((k.bookOut prev me).seatRunning next me) := by
  obtain ⟨hfc, hfi⟩ := bookOut_fields k prev me
  refine seatRunning_good h.inv.bookOut ?_ ?_ (fun c hc t ht => ?_) ?_ (by rw [hfc, hfi]; exact h.started)
  · unfold Linked state
    rw [bookOut_ne hne]
    exact hl
  · rw [bookOut_ne hne]
    exact hq
  · rw [hfc] at ht
    obtain ⟨hs, hqc⟩ := h.seated c hc t ht
    have htp : t ≠ prev := by
      rintro rfl
      rcases h.mine t hcur with ⟨-, h0⟩ | ⟨-, h0⟩
      · exact hc (hqc.symm.trans h0)
      · rcases h0 with h0 | h0 <;> rw [hs] at h0 <;> cases h0
    unfold state
    rw [bookOut_ne htp]
    exact ⟨hs, hqc⟩
  · rw [hfi]
    exact h.started me (by rw [hcur]; simp)

theorem Shuffles.of_fields (hthr : k'.thr = k.thr) (hc : k'.current = k.current) (hi : k'.idle = k.idle) :
    Shuffles k k' :=
  Shuffles.of_thr hc hi fun t => by unfold state; rw [hthr]; exact ⟨rfl, rfl⟩

theorem shuffles_seatLevel : Shuffles k (k.seatLevel t me) := by
  obtain ⟨h1, -, -, h4, h5⟩ := seatLevel_fields k t me
  exact Shuffles.of_fields h1 h5 h4

theorem Almost.mark (h : Inv k) (f : Tcb m → Tcb m)
    (hf : ∀ x, (f x).state = x.state ∧ (f x).prio = x.prio ∧ (f x).rqPrio = x.rqPrio ∧
      (f x).queueCore = x.queueCore ∧ (f x).affinity = x.affinity ∧ (f x).reseatOwed = x.reseatOwed) :
    Inv (k.setThr t f) := by
  obtain ⟨h1, h2, h3, h4, h5, h6⟩ := hf (k.thr t)
  have hL : (k.setThr t f).Linked t ↔ k.Linked t := by
    unfold Linked state
    rw [setThr_self, h1]
  cases t with
  | slot i =>
    refine h.setSlot f (fun _ => ⟨hL, fun _ => ⟨h4, h3⟩⟩) (fun _ => ⟨by rw [h1]; rfl, fun _ => h4⟩)
      (fun _ => h6) (fun _ _ hl hk => ?_) ?_
    · rw [h3, h2] at hk
      exact h.stale i (by simp) (by simp) (hL.1 hl) hk
    · rw [h5, h1]
      exact h.admitted i
  | idle c =>
    refine h.setIdle f (fun _ => ⟨hL, fun _ => ⟨h4, h3⟩⟩) (by rw [h1]; exact h.pool c) (fun hl => ?_)
      (fun hi => hL.2 (h.idleAt c _ hi).2)
    rw [h5, h4]
    exact h.idleMask c (hL.1 hl)

theorem Good.congr (h : Good k) (hthr : k'.thr = k.thr) (hready : k'.ready = k.ready)
    (hring : k'.ring = k.ring) (hidle : k'.idle = k.idle) (hcur : k'.current = k.current) : Good k' :=
  h.shuffles (h.inv.congr hthr hready hring hidle) (Shuffles.of_fields hthr hcur hidle)

theorem Good.claim (h : Good k) (t : Tid m n) : Good (k.claim t) := by
  unfold Machine.claim
  split_ifs
  · exact h.shuffles (h.inv.mark _ fun _ => ⟨rfl, rfl, rfl, rfl, rfl, rfl⟩) (shuffles_setThr _ rfl rfl)
  · exact h

theorem switchBook_good {prev next : Tid m n} (hn : n ≤ 2 ^ 15) (h : Held me parked k w)
    (hl : k.Linked next) (hq : (k.thr next).queueCore = me) (hcur : k.current me = some prev)
    (hne : next ≠ prev) : Good (k.switchBook next me) := by
  have h₁ := h.seat hl hq hcur hne
  unfold switchBook
  rw [hcur]
  dsimp only
  have h₂ : Good (if k.displaced prev me then (((k.bookOut prev me).seatRunning next me).place prev me).1
      else (k.bookOut prev me).seatRunning next me) := by
    split_ifs with hd
    · simp only [displaced, Bool.and_eq_true, decide_eq_true_eq] at hd
      obtain ⟨⟨hs, hr⟩, -⟩ := hd
      have hqp : (k.thr prev).queueCore = me := by
        rcases h.mine prev hcur with ⟨-, h0⟩ | ⟨-, h0⟩
        · exact h0
        · rcases h0 with h0 | h0 <;> rw [hs] at h0 <;> cases h0
      obtain ⟨i, rfl⟩ := h.inv.slot_of_roams (Or.inr hs) hqp hr
      have hready : ((k.bookOut (.slot i) me).seatRunning next me).state (.slot i) = .ready := by
        unfold state
        rw [seatRunning_ne (Ne.symm hne)]
        exact bookOut_ready hs
      exact h₁.shuffles (h₁.inv.place hn hready) (moves_place.shuffles (Or.inl hready))
    · exact h₁
  exact (h₂.shuffles h₂.inv.seatLevel shuffles_seatLevel).claim next

theorem pickAndSeat_good {woken : Option (Tid m n)} (hn : n ≤ 2 ^ 15) (h : Held me parked k w)
    (hw : ∀ t, woken = some t → ∃ i ∈ w, t = .slot i) : Good (k.pickAndSeat woken me) := by
  unfold pickAndSeat
  rcases hp : k.policyPickNext me with _ | next
  · -- Only a core with no idle thread picks nothing, and no such core has started.
    have hidle : k.idle me = none := by
      by_contra h0
      exact pick_isSome h0 hp
    refine ⟨h.inv, fun c t ht => ?_, h.started⟩
    by_cases hc : c = me
    · subst hc
      exact absurd hidle (h.started c (by rw [ht]; simp))
    · exact h.seated c hc t ht
  · obtain ⟨hl, hq⟩ := pick_spec h.inv hp
    dsimp only
    have h₁ : Walked next k (k.placeWoken woken next me) := by
      unfold placeWoken
      cases woken with
      | none => exact Walked.refl h.inv next
      | some t =>
        obtain ⟨i, hi, rfl⟩ := hw t rfl
        dsimp only
        split_ifs with hc
        · exact walked_place hn h.inv ((h.woken i hi).resolve_right hc.2) hc.1
        · exact Walked.refl h.inv next
    generalize k.placeWoken woken next me = k₁ at h₁ ⊢
    have h₂ : Walked next k
        (if k₁.seatedPrio me < (k₁.thr next).rqPrio then k₁.placeDeclined next woken me else k₁) := by
      split_ifs
      · exact h₁.trans (walked_placeDeclined hn h₁.inv next woken me)
      · exact h₁
    generalize (if k₁.seatedPrio me < (k₁.thr next).rqPrio then k₁.placeDeclined next woken me else k₁) = k₂
      at h₂ ⊢
    have hH : Held me parked k₂ w := h.shuffles h₂.inv h₂.shuffles
    have hl₂ : k₂.Linked next := by
      unfold Linked state
      rw [h₂.spared]
      exact hl
    have hq₂ : (k₂.thr next).queueCore = me := by
      rw [h₂.spared]
      exact hq
    split_ifs with hcur
    · -- The thread picked again is linked, so it is the running one and not one just parked.
      have hgood : Good k₂ := by
        refine ⟨h₂.inv, fun c t ht => ?_, hH.started⟩
        by_cases hc : c = me
        · subst hc
          obtain rfl := Option.some.inj (hcur.symm.trans ht)
          rcases hH.mine next hcur with h0 | ⟨-, h0⟩
          · exact h0
          · rcases hl₂ with h1 | h1 <;> rcases h0 with h0 | h0 <;> rw [h1] at h0 <;> cases h0
        · exact hH.seated c hc t ht
      exact hgood.shuffles hgood.inv.seatLevel shuffles_seatLevel
    · rcases hprev : k₂.current me with _ | prev
      · unfold switchBook
        rw [hprev]
        refine ⟨h₂.inv, fun c t ht => ?_, hH.started⟩
        by_cases hc : c = me
        · subst hc
          rw [hprev] at ht
          cases ht
        · exact hH.seated c hc t ht
      · refine switchBook_good hn hH hl₂ hq₂ hprev ?_
        rintro rfl
        exact hcur hprev

end Machine
end Smp
end KickOS
