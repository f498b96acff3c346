import KickOS.Gthr.Lists

/-! Thread records are freed once, and not while they are in use, as long as no create's registry step finds a detached
thread in the slot of its handle.

A create that was delayed between `kos_thread_create` and the registry lock holds the handle of a thread that may be
gone, its slot another's. `stale_create_frees` is that run: it frees the record of the detached thread running there. -/

namespace KickOS
namespace Gthr

open Lib
open Function (update update_of_ne update_self)

variable {gens : Nat} {s s' : St} {t T r d : Nat} {a : Act} {h : Handle} {q : Pc}

/-! ### The registry step of a create -/

theorem mem_gone : d ∈ s.gone h ↔ d ∈ s.detached ∧ (s.runs d).handle.map Handle.slot = some h.slot := by
  simp [St.gone]

theorem mem_staying : d ∈ s.staying h ↔ d ∈ s.detached ∧ (s.runs d).handle.map Handle.slot ≠ some h.slot := by
  simp [St.staying]

theorem gone_dead (hi : Inv s) (hclear : ∀ T d, s.alive T = true → s.record T = some d → d ∈ s.detached →
    (s.self T).slot ≠ h.slot) (hd : d ∈ s.gone h) (hT : s.record T = some d) : s.alive T = false := by
  obtain ⟨hmem, hslot⟩ := mem_gone.mp hd
  obtain ⟨T', hT', hh⟩ := hi.filed d (Or.inr hmem)
  obtain rfl := hi.one T T' d hT hT'
  rw [hh] at hslot
  by_contra hal
  exact hclear T d (by simpa using hal) hT hmem (Option.some.inj hslot)

/-- Behind the registry step of `create`. -/
def St.registered (s : St) (t r : Nat) (h : Handle) : St :=
  { s.setPc t (.unlocking (s.gone h).reverse false) with
    runs := update s.runs r { s.runs r with handle := some h }
    registry := r :: s.registry
    detached := s.staying h }

theorem registered_state (t r : Nat) (h : Handle) (x : Nat) : ((s.registered t r h).runs x).state = (s.runs x).state := by
  change (update s.runs r { s.runs r with handle := some h } x).state = (s.runs x).state
  by_cases hx : x = r
  · subst hx
    rw [update_self]
  · rw [update_of_ne hx]

theorem mem_held_registering (hp : s.pc t = .registering r h) : r ∈ s.place (.held t) := by
  change r ∈ (s.pc t).held
  rw [hp]
  exact List.mem_singleton_self r

theorem register_moves (hp : s.pc t = .registering r h) :
    Moves s (s.registered t r h) t (.unlocking (s.gone h).reverse false) := by
  refine ⟨rfl, rfl, rfl, rfl, rfl, rfl, fun _ _ hl => hl, fun x hx => ?_,
    fun x hx => (registered_state t r h x).trans hx, fun x _ _ => registered_state t r h x⟩
  have hxr : x ≠ r := fun hxr => hx (hxr ▸ mem_held_registering hp)
  dsimp only [St.registered]
  rw [update_of_ne hxr]

/-- The record goes from the thread to the registry first, and then the gone ones from the detached list to the
thread. -/
theorem register_apart (hi : Inv s) (hp : s.pc t = .registering r h) : Apart (s.registered t r h).place := by
  have hmem := mem_held_registering hp
  have hm := register_moves hp
  have hout : ∀ p, p ≠ .held t → r ∉ s.place p := fun p hpt hr => hpt (hi.apart.apart p (.held t) r hr hmem)
  have hfirst : Apart (update (update s.place (.held t) []) .registry (r :: s.registry)) := by
    refine hi.apart.move (p := .held t) (q := .registry) (fun x hx hx' => ?_) ?_ ?_ ?_ ?_
    · rw [update_of_ne hx', update_of_ne hx]
    · rw [update_of_ne (by simp), update_self]
      exact List.nodup_nil
    · rw [update_self]
      exact List.nodup_cons.mpr ⟨hout .registry (by simp), hi.apart.nodup .registry⟩
    · intro x hx
      rw [update_of_ne (by simp), update_self] at hx
      exact absurd hx List.not_mem_nil
    · rintro x (hx | hx)
      · rw [update_of_ne (by simp), update_self] at hx
        exact absurd hx List.not_mem_nil
      · rw [update_self] at hx
        rcases List.mem_cons.mp hx with rfl | hx
        · exact Or.inl (Or.inl hmem)
        · exact Or.inl (Or.inr hx)
  have hnd := hi.apart.nodup .detached
  refine hfirst.move (p := .held t) (q := .detached) (fun x hx hx' => ?_) ?_ ?_ ?_ ?_
  · cases x with
    | registry => rw [update_self]; rfl
    | detached => exact absurd rfl hx'
    | freed => rfl
    | held T =>
      have hT : T ≠ t := fun heq => hx (by rw [heq])
      rw [hm.held_of_ne hT, update_of_ne (by simp), update_of_ne (by simpa using hT)]
  · rw [hm.held_self]
    exact List.nodup_reverse.mpr (hnd.filter _)
  · exact hnd.filter _
  · intro x hx hx'
    rw [hm.held_self] at hx
    exact (mem_staying.mp hx').2 (mem_gone.mp (List.mem_reverse.mp hx)).2
  · rintro x (hx | hx)
    · rw [hm.held_self] at hx
      exact Or.inl (Or.inr (mem_gone.mp (List.mem_reverse.mp hx)).1)
    · exact Or.inl (Or.inr (mem_staying.mp hx).1)

theorem register_inv (hi : Inv s) (hal : s.alive t = true) (hp : s.pc t = .registering r h)
    (hclear : ∀ T d, s.alive T = true → s.record T = some d → d ∈ s.detached → (s.self T).slot ≠ h.slot) :
    Inv (s.registered t r h) := by
  have hok := hi.pcs t
  rw [hp] at hok
  have hne : s.pc t ≠ .exit := by
    rw [hp]
    simp
  have hmem := mem_held_registering hp
  have hm := register_moves hp
  have hdead : ∀ x ∈ s.gone h, ∀ T, s.record T = some x → s.alive T = false := fun x hx T hT => gone_dead hi hclear hx hT
  refine hi.moves hm hne (hi.alive_lt hal) (register_apart hi hp) ?_ ?_ ?_ ?_
  · intro p x hx
    cases p with
    | registry =>
      rcases List.mem_cons.mp hx with rfl | hx
      · exact ⟨.held t, hmem⟩
      · exact ⟨.registry, hx⟩
    | detached => exact ⟨.detached, (mem_staying.mp hx).1⟩
    | freed => exact ⟨.freed, hx⟩
    | held T =>
      by_cases hT : T = t
      · subst hT
        rw [hm.held_self] at hx
        exact ⟨.detached, (mem_gone.mp (List.mem_reverse.mp hx)).1⟩
      · exact ⟨.held T, hm.held_of_ne hT ▸ hx⟩
  · intro x hx
    by_cases hxr : x = r
    · subst hxr
      obtain ⟨T, hrec, hself⟩ := hok.2
      exact ⟨T, hrec, by dsimp only [St.registered]; rw [update_self, ← hself]; rfl⟩
    · have hx' : x ∈ s.registry ∨ x ∈ s.detached := by
        rcases hx with hx | hx
        · exact Or.inl ((List.mem_cons.mp hx).resolve_left hxr)
        · exact Or.inr (mem_staying.mp hx).1
      exact hm.filed (not_held_of_list hi hx') (hi.filed x hx')
  · refine ⟨hok.1, fun x hx T hT => Or.inl (Or.inl ?_)⟩
    exact hdead x (List.mem_reverse.mp hx) T hT
  · intro T x hx
    have hold := hi.recs T x hx
    by_cases hg : x ∈ s.gone h
    · have hd : Done (s.registered t r h) T := Or.inl (hdead x hg T hx)
      exact ⟨fun _ => hd, fun _ => Or.inl hd, fun _ => Or.inl hd⟩
    · refine RecOk.kept (hm.kept hne) hx hold (registered_state t r h x)
        (fun hd => mem_staying.mpr ⟨hd, fun hs => hg (mem_gone.mpr ⟨hd, hs⟩)⟩) id (fun he => ?_) (by rw [hp]; simp)
      rw [hp] at he
      rcases he with ⟨rs, he | he⟩ <;> cases he

/-! ### Every step -/

theorem step_go (hs : s.step gens a = some s') :
    (∃ slot, a = .spawn slot ∧ s' = s.seat gens slot none) ∨
      (∃ t, a = .die t ∧ s' = { s with alive := update s.alive t false }) ∨
      ∃ t, a.thread = some t ∧ s.alive t = true ∧ s.go gens a = some s' := by
  unfold St.step at hs
  split at hs
  · split at hs
    · exact Or.inl ⟨_, rfl, (Option.some.inj hs).symm⟩
    · cases hs
  · split at hs
    · exact Or.inr (Or.inl ⟨_, rfl, (Option.some.inj hs).symm⟩)
    · cases hs
  · split at hs
    · rename_i t ht
      split at hs
      · rename_i hal
        exact Or.inr (Or.inr ⟨t, ht, hal, hs⟩)
      · cases hs
    · cases hs

/-- A thread goes on with the record it holds, and the lock changes hands only if it was free or its own. -/
theorem Inv.goOn (hi : Inv s) (hal : s.alive t = true) {l : Option Nat} (hl : ∀ T, T ≠ t → s.lock = some T → l = some T)
    (hne : s.pc t ≠ .exit) (hend : ¬Ending (s.pc t)) (hswap : ∀ r, s.pc t ≠ .swapped r) (hheld : q.held = (s.pc t).held)
    (hq : PcOk { s.setPc t q with lock := l } t q) : Inv { s.setPc t q with lock := l } :=
  hi.pass rfl ⟨rfl, rfl, rfl, rfl, rfl⟩ rfl hl hne (hi.alive_lt hal) ⟨rfl, rfl, rfl⟩ hheld hq
    (fun he => absurd he hend) hswap

theorem take_inv (hi : Inv s) (hal : s.alive t = true) (hl : s.lock = none) (ht : St.takes (s.pc t) = some q) :
    Inv { s.setPc t q with lock := some t } := by
  have hlock : ∀ T, T ≠ t → s.lock = some T → some t = some T := by
    intro T _ h
    rw [hl] at h
    cases h
  have hok := hi.pcs t
  cases hp : s.pc t <;> rw [hp] at ht hok <;> cases ht
  all_goals
    refine hi.goOn hal hlock (by rw [hp]; simp) (by rw [hp]; rintro ⟨rs, he | he⟩ <;> cases he) (by rw [hp]; simp)
      (by rw [hp]; rfl) ?_
  · exact ⟨rfl, hok⟩
  · rfl
  · rfl
  · exact ⟨rfl, hok⟩

theorem inv_unlock (hi : Inv s) (hal : s.alive t = true) (hs : s.go gens (.unlock t) = some s') : Inv s' := by
  have hok := hi.pcs t
  dsimp only [St.go] at hs
  split at hs
  · rename_i rs ends hp
    obtain rfl := Option.some.inj hs
    rw [hp] at hok
    have hne : s.pc t ≠ .exit := by
      rw [hp]
      simp
    have hlock : ∀ T, T ≠ t → s.lock = some T → (none : Option Nat) = some T := by
      intro T hT hl
      rw [hok.1] at hl
      exact absurd (Option.some.inj hl).symm hT
    have hm : Moves s { s.setPc t (.freeing rs ends) with lock := none } t (.freeing rs ends) :=
      moves_of_runs rfl ⟨rfl, rfl, rfl, rfl, rfl⟩ rfl hlock
    refine hi.pass rfl ⟨rfl, rfl, rfl, rfl, rfl⟩ rfl hlock hne (hi.alive_lt hal) ⟨rfl, rfl, rfl⟩ (by rw [hp]; rfl) ?_
      (fun he => Or.inl ?_) (by rw [hp]; simp)
    · exact fun x hx T hT => (hok.2 x hx T hT).imp_left ((hm.kept hne).done T x hT)
    · rw [hp] at he
      rcases he with ⟨rs', he | he⟩
      · obtain ⟨-, rfl⟩ := Pc.unlocking.inj he
        exact ⟨rs, Or.inr rfl⟩
      · cases he
  · rename_i r hp
    obtain rfl := Option.some.inj hs
    rw [hp] at hok
    refine hi.goOn hal (fun T hT hl => ?_) (by rw [hp]; simp) (by rw [hp]; rintro ⟨rs, he | he⟩ <;> cases he)
      (by rw [hp]; simp) (by rw [hp]; rfl) hok.2
    rw [hok.1] at hl
    exact absurd (Option.some.inj hl).symm hT
  · cases hs

theorem joined_dead (hi : Inv s) (hp : s.pc t = .waiting r) (hn : s.names (s.runs r).handle = false)
    (hT : s.record T = some r) : s.alive T = false := by
  have hok := hi.pcs t
  rw [hp] at hok
  obtain ⟨T', hT', hh⟩ := hok
  obtain rfl := hi.one T T' r hT hT'
  by_contra hal
  have hany : s.names (s.runs r).handle = true := by
    refine List.any_eq_true.mpr ⟨T, List.mem_range.mpr (hi.thread_lt hT), ?_⟩
    simpa [hh] using hal
  rw [hany] at hn
  cases hn

/-- The same without the lock: a step out of the entry `p`. -/
theorem Inv.advance {p : Pc} (hi : Inv s) (hal : s.alive t = true) (hp : s.pc t = p) (hne : p ≠ .exit) (hend : ¬Ending p)
    (hswap : ∀ r, p ≠ .swapped r) (hheld : q.held = p.held) (hq : PcOk (s.setPc t q) t q) : Inv (s.setPc t q) := by
  subst hp
  exact hi.goOn hal (fun _ _ hl => hl) hne hend hswap hheld hq

theorem inv_refuse (hi : Inv s) (hal : s.alive t = true) (hs : s.go gens (.refuse t) = some s') : Inv s' := by
  dsimp only [St.go] at hs
  split at hs
  · rename_i r hp
    have hok := hi.pcs t
    rw [hp] at hok
    cases hs
    refine hi.advance hal hp (by simp) (by simp [Ending]) (by simp) rfl fun x hx T hT => ?_
    obtain rfl := List.mem_singleton.mp hx
    exact absurd hT (hok.1 T)
  · cases hs

theorem inv_join (hi : Inv s) (hal : s.alive t = true) (hs : s.go gens (.join t h) = some s') : Inv s' := by
  dsimp only [St.go] at hs
  split at hs
  · rename_i hp
    split at hs
    · cases hs
    · cases hs
      exact hi.advance hal hp (by simp) (by simp [Ending]) (by simp) rfl trivial
  · cases hs

theorem inv_detach (hi : Inv s) (hal : s.alive t = true) (hs : s.go gens (.detach t h) = some s') : Inv s' := by
  dsimp only [St.go] at hs
  split at hs
  · rename_i hp
    cases hs
    exact hi.advance hal hp (by simp) (by simp [Ending]) (by simp) rfl trivial
  · cases hs

theorem inv_claim (hi : Inv s) (hal : s.alive t = true) (hs : s.go gens (.claim t) = some s') : Inv s' := by
  dsimp only [St.go] at hs
  split at hs
  · rename_i h hp
    have hok := hi.pcs t
    rw [hp] at hok
    split at hs
    · cases hs
      exact hi.advance hal hp (by simp) (by simp [Ending]) (by simp) rfl ⟨hok, fun x hx => absurd hx List.not_mem_nil⟩
    · rename_i r hfind
      cases hs
      exact find_inv hi hal hok (by rw [hp]; rfl) (by simp [hp]) (by simp [hp, Ending]) hfind (Or.inl rfl)
  · cases hs

theorem inv_joined (hi : Inv s) (hal : s.alive t = true) (hs : s.go gens (.joined t) = some s') : Inv s' := by
  dsimp only [St.go] at hs
  split at hs
  · rename_i r hp
    split at hs
    · cases hs
    · rename_i hn
      cases hs
      refine hi.advance hal hp (by simp) (by simp [Ending]) (by simp) rfl fun x hx T hT => Or.inl (Or.inl ?_)
      obtain rfl := List.mem_singleton.mp hx
      have hdead : s.alive T = false := joined_dead hi hp (by simpa using hn) hT
      exact hdead
  · cases hs

theorem inv_unlink (hi : Inv s) (hal : s.alive t = true) (hs : s.go gens (.unlink t) = some s') : Inv s' := by
  dsimp only [St.go] at hs
  split at hs
  · rename_i h hp
    have hok := hi.pcs t
    rw [hp] at hok
    split at hs
    · cases hs
      exact hi.advance hal hp (by simp) (by simp [Ending]) (by simp) rfl ⟨hok, fun x hx => absurd hx List.not_mem_nil⟩
    · rename_i r hfind
      cases hs
      exact find_inv hi hal hok (by rw [hp]; rfl) (by simp [hp]) (by simp [hp, Ending]) hfind (Or.inr rfl)
  · cases hs

/-- A detach that finds the thread returned frees its record; one that comes first leaves that to the thread. -/
theorem inv_swap (hi : Inv s) (hal : s.alive t = true) (hs : s.go gens (.swap t) = some s') : Inv s' := by
  dsimp only [St.go] at hs
  split at hs
  · rename_i r hp
    have hok := hi.pcs t
    rw [hp] at hok
    split at hs
    · rename_i hst
      cases hs
      have hdone : ∀ T, s.record T = some r → Done s T := fun T hT => (hi.recs T r hT).returned hst
      have hm : Moves s (s.setPc t (.unlocking [r] false)) t (.unlocking [r] false) :=
        moves_of_runs rfl ⟨rfl, rfl, rfl, rfl, rfl⟩ rfl fun _ _ hl => hl
      refine hi.advance hal hp (by simp) (by simp [Ending]) (by simp) rfl ⟨hok.1, fun x hx T hT => Or.inl ?_⟩
      obtain rfl := List.mem_singleton.mp hx
      exact (hm.kept (by simp [hp])).done T x hT (hdone T hT)
    · rename_i hst
      cases hs
      exact swap_inv hi hal hp hst
  · cases hs

theorem inv_ret (hi : Inv s) (hal : s.alive t = true) (hs : s.go gens (.ret t) = some s') : Inv s' := by
  dsimp only [St.go] at hs
  split at hs
  · rename_i hp hrec
    cases hs
    exact hi.advance hal hp (by simp) (by simp [Ending]) (by simp) rfl trivial
  · cases hs

/-- A thread that finds itself detached takes its record off the list; one that is not leaves it to a join. -/
theorem inv_leave (hi : Inv s) (hal : s.alive t = true) (hs : s.go gens (.leave t) = some s') : Inv s' := by
  dsimp only [St.go] at hs
  split at hs
  · rename_i r hp hrec
    split at hs
    · rename_i hst
      cases hs
      exact hi.advance hal hp (by simp) (by simp [Ending]) (by simp) rfl ⟨r, hrec, hst⟩
    · rename_i hst
      cases hs
      exact leave_inv hi hal hp hrec hst
  · cases hs

/-- Each record of the list is freed in turn, and behind the last the call is over. -/
theorem inv_free (hi : Inv s) (hal : s.alive t = true) (hs : s.go gens (.free t) = some s') : Inv s' := by
  dsimp only [St.go] at hs
  split at hs
  · rename_i r rs ends hp
    cases hs
    exact free_inv hi hal hp
  · rename_i ends hp
    cases hs
    refine hi.pass rfl ⟨rfl, rfl, rfl, rfl, rfl⟩ rfl (fun _ _ hl => hl) (by simp [hp]) (hi.alive_lt hal) ⟨rfl, rfl, rfl⟩ ?_ ?_
      (fun he => Or.inr ?_) (by simp [hp])
    · rw [hp]
      split <;> rfl
    · split <;> trivial
    · rw [hp] at he
      rcases he with ⟨rs', he | he⟩
      · cases he
      · obtain ⟨-, rfl⟩ := Pc.freeing.inj he
        rfl
  · cases hs

theorem inv_alloc (hi : Inv s) (hal : s.alive t = true) (hs : s.go gens (.alloc t) = some s') : Inv s' := by
  dsimp only [St.go] at hs
  split at hs
  · rename_i hp
    cases hs
    exact alloc_inv hi hal hp
  · cases hs

theorem inv_start {slot : Nat} (hi : Inv s) (hal : s.alive t = true) (hs : s.go gens (.start t slot) = some s') : Inv s' := by
  dsimp only [St.go] at hs
  split at hs
  · rename_i r hp
    split at hs
    · cases hs
      exact start_step_inv hi hal hp
    · cases hs
  · cases hs

theorem inv_take (hi : Inv s) (hal : s.alive t = true) (hs : s.go gens (.take t) = some s') : Inv s' := by
  dsimp only [St.go] at hs
  split at hs
  · rename_i hl
    obtain ⟨q, hq, rfl⟩ := Option.map_eq_some_iff.mp hs
    exact take_inv hi hal hl hq
  · cases hs

theorem inv_push (hi : Inv s) (hal : s.alive t = true) (hs : s.go gens (.push t) = some s') : Inv s' := by
  dsimp only [St.go] at hs
  split at hs
  · rename_i r hp
    cases hs
    exact push_inv hi hal hp
  · cases hs

theorem inv_remove (hi : Inv s) (hal : s.alive t = true) (hs : s.go gens (.remove t) = some s') : Inv s' := by
  dsimp only [St.go] at hs
  split at hs
  · rename_i r hp hrec
    cases hs
    exact remove_inv hi hal hp hrec
  · cases hs

theorem inv_register (hi : Inv s) (hal : s.alive t = true) (hc : Clear s (.register t))
    (hs : s.go gens (.register t) = some s') : Inv s' := by
  dsimp only [St.go] at hs
  split at hs
  · rename_i r h hp
    cases hs
    exact register_inv hi hal hp (hc r h hp)
  · cases hs

theorem inv_step (hi : Inv s) (hc : Clear s a) (hs : s.step gens a = some s') : Inv s' := by
  rcases step_go hs with ⟨slot, rfl, rfl⟩ | ⟨t, rfl, rfl⟩ | ⟨t, hthread, hal, hs⟩
  · exact spawn_inv hi
  · exact die_inv hi
  cases a with
  | spawn slot => cases hs
  | die t' => cases hs
  | alloc t' => cases hthread; exact inv_alloc hi hal hs
  | start t' slot => cases hthread; exact inv_start hi hal hs
  | refuse t' => cases hthread; exact inv_refuse hi hal hs
  | join t' h => cases hthread; exact inv_join hi hal hs
  | detach t' h => cases hthread; exact inv_detach hi hal hs
  | take t' => cases hthread; exact inv_take hi hal hs
  | register t' => cases hthread; exact inv_register hi hal hc hs
  | claim t' => cases hthread; exact inv_claim hi hal hs
  | joined t' => cases hthread; exact inv_joined hi hal hs
  | unlink t' => cases hthread; exact inv_unlink hi hal hs
  | swap t' => cases hthread; exact inv_swap hi hal hs
  | push t' => cases hthread; exact inv_push hi hal hs
  | ret t' => cases hthread; exact inv_ret hi hal hs
  | leave t' => cases hthread; exact inv_leave hi hal hs
  | remove t' => cases hthread; exact inv_remove hi hal hs
  | unlock t' => cases hthread; exact inv_unlock hi hal hs
  | free t' => cases hthread; exact inv_free hi hal hs

theorem Cleared.inv (h : Cleared gens s) : Inv s := by
  induction h with
  | start => exact start_inv
  | step _ hc hs ih => exact inv_step ih hc hs

/-! ### No use of a freed record -/

theorem held_not_freed (hi : Inv s) (hr : r ∈ (s.pc t).held) : r ∉ s.freed := fun hf => by
  cases hi.apart.apart (.held t) .freed r hr hf

theorem list_not_freed (hi : Inv s) (hr : r ∈ s.registry ∨ r ∈ s.detached) : r ∉ s.freed := by
  intro hf
  rcases hr with hr | hr
  · cases hi.apart.apart .registry .freed r hr hf
  · cases hi.apart.apart .detached .freed r hr hf

theorem own_not_freed (hi : Inv s) (hal : s.alive t = true) (hne : s.pc t ≠ .exit) (hend : ¬Ending (s.pc t))
    (hr : s.record t = some r) : r ∉ s.freed := by
  intro hf
  rcases (hi.recs t r hr).freed hf with (hd | hd) | he
  · rw [hal] at hd
    cases hd
  · exact hne hd
  · exact hend he

theorem uses_not_freed (hi : Inv s) (hs : s.step gens a = some s') (hr : r ∈ s.uses a) : r ∉ s.freed := by
  rcases step_go hs with ⟨slot, rfl, -⟩ | ⟨t, rfl, -⟩ | ⟨t, hthread, hal, hgo⟩
  · cases hr
  · cases hr
  have hown : ∀ {u : Nat}, s.alive u = true → s.pc u ≠ .exit → ¬Ending (s.pc u) → r ∈ (s.record u).toList →
      r ∉ s.freed := fun hal hne hend hrec => own_not_freed hi hal hne hend (Option.mem_toList.mp hrec)
  cases a with
  | register u => exact (List.mem_append.mp hr).elim (held_not_freed hi) fun hd => list_not_freed hi (Or.inr hd)
  | claim u => exact list_not_freed hi (Or.inl hr)
  | unlink u => exact list_not_freed hi (Or.inl hr)
  | joined u => exact held_not_freed hi hr
  | swap u => exact held_not_freed hi hr
  | push u => exact held_not_freed hi hr
  | free u => exact held_not_freed hi (List.mem_of_mem_take hr)
  | ret u =>
    obtain rfl := Option.some.inj hthread
    dsimp only [St.go] at hgo
    split at hgo
    · rename_i hp hrec
      exact hown hal (by rw [hp]; simp) (by rw [hp]; exact not_ending_user) hr
    · cases hgo
  | leave u =>
    obtain rfl := Option.some.inj hthread
    dsimp only [St.go] at hgo
    split at hgo
    · rename_i x hp hrec
      exact hown hal (by rw [hp]; simp) (by rw [hp]; rintro ⟨rs, he | he⟩ <;> cases he) hr
    · cases hgo
  | remove u =>
    obtain rfl := Option.some.inj hthread
    dsimp only [St.go] at hgo
    split at hgo
    · rename_i x hp hrec
      rcases List.mem_append.mp hr with hr | hr
      · exact hown hal (by rw [hp]; simp) (by rw [hp]; rintro ⟨rs, he | he⟩ <;> cases he) hr
      · exact list_not_freed hi (Or.inr hr)
    · cases hgo
  | _ => cases hr

/-- The condition is the one under which a create takes none but dead threads' records to free. -/
theorem clear_iff (hi : Inv s) (hs : s.step gens (.register t) = some s') :
    Clear s (.register t) ↔ ∀ r ∈ (s'.pc t).held, ∀ T, s.record T = some r → s.alive T = false := by
  rcases step_go hs with ⟨slot, hact, -⟩ | ⟨t, hact, -⟩ | ⟨u, hthread, hal, hgo⟩
  · cases hact
  · cases hact
  obtain rfl := Option.some.inj hthread
  dsimp only [St.go] at hgo
  split at hgo
  · rename_i r h hp
    obtain rfl := Option.some.inj hgo
    have hheld : (update s.pc t (.unlocking (s.gone h).reverse false) t).held = (s.gone h).reverse := by
      rw [update_self]
      rfl
    dsimp only [St.setPc]
    rw [hheld]
    refine ⟨fun hc x hx T hT => gone_dead hi (hc r h hp) (List.mem_reverse.mp hx) hT, fun hdead r' h' hp' T d hT hd hmem => ?_⟩
    obtain ⟨-, rfl⟩ := Pc.registering.inj (hp.symm.trans hp')
    intro hslot
    obtain ⟨T', hT', hh⟩ := hi.filed d (Or.inr hmem)
    obtain rfl := hi.one T T' d hd hT'
    have hgone : d ∈ s.gone h := mem_gone.mpr ⟨hmem, by rw [hh, ← hslot]; rfl⟩
    have hd' := hdead d (List.mem_reverse.mpr hgone) T hd
    rw [hT] at hd'
    cases hd'
  · cases hgo

/-- In every run in which no create's registry step finds a detached thread in the slot of its handle: no record is freed
twice or used after it was freed, a freed record's thread is past its last access, and a record is on one of the two
lists at most. A registry step meets the condition exactly where the records it takes to free are dead threads'. -/
theorem records_freed_once (h : Cleared gens s) :
    s.freed.Nodup ∧ (∀ r ∈ s.freed, ∀ T, s.record T = some r → Done s T ∨ Ending (s.pc T)) ∧
      (∀ a s', s.step gens a = some s' → ∀ r ∈ s.uses a, r ∉ s.freed) ∧
      (s.registry.Nodup ∧ s.detached.Nodup ∧ ∀ r ∈ s.registry, r ∉ s.detached) ∧
      ∀ t s', s.step gens (.register t) = some s' →
        (Clear s (.register t) ↔ ∀ r ∈ (s'.pc t).held, ∀ T, s.record T = some r → s.alive T = false) := by
  have hi := h.inv
  refine ⟨hi.apart.nodup .freed, fun r hr T hT => (hi.recs T r hT).freed hr, fun a s' hs r hr => uses_not_freed hi hs hr,
    ⟨hi.apart.nodup .registry, hi.apart.nodup .detached, fun r hr hr' => ?_⟩, fun t s' hs => clear_iff hi hs⟩
  cases hi.apart.apart .registry .detached r hr hr'

/-! ### Runs -/

def St.follow (gens : Nat) (s : St) : List Act → Option St
  | [] => some s
  | a :: as => (s.step gens a).bind fun u => u.follow gens as

theorem Reachable.follow : ∀ {as : List Act} {s : St}, Reachable gens s → s.follow gens as = some s' → Reachable gens s'
  | [], _, h, hs => by
    obtain rfl := Option.some.inj hs
    exact h
  | _ :: as, _, h, hs => by
    obtain ⟨u, hu, hs⟩ := Option.bind_eq_some_iff.mp hs
    exact (h.step hu).follow hs

/-- No thread that was detached is alive where a create registers its own. -/
def St.quiet (s : St) : Act → Bool
  | .register _ => (List.range s.nextThread).all fun T => !s.alive T || (s.record T).all fun d => d ∉ s.detached
  | _ => true

theorem clear_of_quiet (hi : Inv s) (hq : s.quiet a = true) : Clear s a := by
  cases a with
  | register t =>
    intro r h _ T d hal hT hd
    have hall := List.all_eq_true.mp hq T (List.mem_range.mpr (hi.thread_lt hT))
    rw [hal, hT] at hall
    simp [hd] at hall
  | _ => trivial

/-- A run whose registry steps all find the detached threads gone. -/
def St.followQuiet (gens : Nat) (s : St) : List Act → Option St
  | [] => some s
  | a :: as => if s.quiet a then (s.step gens a).bind fun u => u.followQuiet gens as else none

theorem Cleared.follow : ∀ {as : List Act} {s : St}, Cleared gens s → s.followQuiet gens as = some s' → Cleared gens s'
  | [], _, h, hs => by
    obtain rfl := Option.some.inj hs
    exact h
  | a :: as, s, h, hs => by
    unfold St.followQuiet at hs
    split at hs
    · rename_i hq
      obtain ⟨u, hu, hs⟩ := Option.bind_eq_some_iff.mp hs
      exact (h.step (clear_of_quiet h.inv hq) hu).follow hs
    · cases hs

/-- Thread 0 creates a thread in slot 1 and detaches it, the thread is killed, and thread 0 creates another one there, whose
registry step frees the record of the first, and joins it. -/
def detachJoin : List Act :=
  [.alloc 0, .start 0 1, .take 0, .register 0, .unlock 0, .free 0, .detach 0 ⟨1, 1⟩, .take 0, .unlink 0, .swap 0, .push 0,
    .unlock 0, .free 0, .die 1, .alloc 0, .start 0 1, .take 0, .register 0, .unlock 0, .free 0, .free 0, .join 0 ⟨1, 2⟩, .take 0,
    .claim 0, .unlock 0, .ret 2, .leave 2, .die 2, .joined 0, .free 0]

theorem records_freed_once_detachJoin : ∃ s, Cleared 65536 s ∧ s.freed = [1, 0] ∧ s.freed.Nodup ∧
    (∀ r ∈ s.freed, ∀ T, s.record T = some r → Done s T ∨ Ending (s.pc T)) ∧
    s.registry.Nodup ∧ s.detached.Nodup ∧ ∀ r ∈ s.registry, r ∉ s.detached := by
  have hrun : (St.start.followQuiet 65536 detachJoin).map St.freed = some [1, 0] := by decide +kernel
  obtain ⟨s, hs, hfreed⟩ := Option.map_eq_some_iff.mp hrun
  have hc : Cleared 65536 s := Cleared.start.follow hs
  obtain ⟨hnd, hdone, -, hlists, -⟩ := records_freed_once hc
  exact ⟨s, hc, hfreed, hnd, hdone, hlists⟩

/-- Thread 0's create is delayed once its thread 2 is started in slot 2. That thread returns and is gone, thread 1 starts
thread 3 in the slot and detaches it, and thread 0 goes on. -/
def staleCreate : List Act :=
  [.spawn 1, .alloc 0, .start 0 2, .ret 2, .leave 2, .die 2, .alloc 1, .start 1 2, .take 1, .register 1, .unlock 1,
    .free 1, .detach 1 ⟨2, 2⟩, .take 1, .unlink 1, .swap 1, .push 1, .unlock 1, .free 1, .take 0, .register 0, .unlock 0,
    .free 0]

/-- Thread 3 is then still in its function, and its record is freed. -/
theorem stale_create_frees : ¬ ∀ s, Reachable 65536 s → ∀ r ∈ s.freed, ∀ T, s.record T = some r →
    Done s T ∨ Ending (s.pc T) := by
  intro hclaim
  have hrun : (St.start.follow 65536 staleCreate).map (fun s => (s.freed, s.record 3, s.alive 3, s.pc 3)) =
      some ([1], some 1, true, .user) := by decide +kernel
  obtain ⟨s, hs, hend⟩ := Option.map_eq_some_iff.mp hrun
  obtain ⟨hfreed, hend⟩ := Prod.mk.inj hend
  obtain ⟨hrec, hend⟩ := Prod.mk.inj hend
  obtain ⟨hal, hpc⟩ := Prod.mk.inj hend
  rcases hclaim s (Reachable.start.follow hs) 1 (by rw [hfreed]; exact List.mem_singleton_self 1) 3 hrec with
    (hd | hd) | he
  · rw [hal] at hd
    cases hd
  · rw [hpc] at hd
    cases hd
  · rw [hpc] at he
    exact not_ending_user he

end Gthr
end KickOS
