import KickOS.Gthr.Freeing

/-! Every step keeps the records where one thread at most frees them, as long as no create's registry step finds a
detached thread in its slot. -/

namespace KickOS
namespace Gthr

open Lib
open Function (update update_of_ne update_self)

variable {gens : Nat} {s s' : St} {t T r d : Nat} {a : Act} {h : Handle} {q : Pc}

/-! ### A step of a thread there is -/

/-- The thread goes on to `q`, and changes no record but its own and those it holds. -/
structure Moves (s s' : St) (t : Nat) (q : Pc) : Prop where
  pc : s'.pc = update s.pc t q
  alive : s'.alive = s.alive
  record : s'.record = s.record
  self : s'.self = s.self
  nextThread : s'.nextThread = s.nextThread
  nextRun : s'.nextRun = s.nextRun
  lock : ∀ T, T ≠ t → s.lock = some T → s'.lock = some T
  handle : ∀ r, r ∉ (s.pc t).held → (s'.runs r).handle = (s.runs r).handle
  detached : ∀ r, (s.runs r).state = .detached → (s'.runs r).state = .detached
  live : ∀ r, r ∉ (s.pc t).held → s.record t ≠ some r → (s'.runs r).state = (s.runs r).state

theorem Moves.pc_self (hm : Moves s s' t q) : s'.pc t = q := by
  rw [hm.pc, update_self]

theorem Moves.pc_of_ne (hm : Moves s s' t q) (hT : T ≠ t) : s'.pc T = s.pc T := by
  rw [hm.pc, update_of_ne hT]

theorem moves_of_runs (hpc : s'.pc = update s.pc t q)
    (hsame : s'.alive = s.alive ∧ s'.record = s.record ∧ s'.self = s.self ∧ s'.nextThread = s.nextThread ∧
      s'.nextRun = s.nextRun)
    (hruns : s'.runs = s.runs) (hlock : ∀ T, T ≠ t → s.lock = some T → s'.lock = some T) : Moves s s' t q := by
  obtain ⟨halive, hrec, hself, hnt, hnr⟩ := hsame
  refine ⟨hpc, halive, hrec, hself, hnt, hnr, hlock, fun r _ => by rw [hruns], fun r hr => by rw [hruns]; exact hr,
    fun r _ _ => by rw [hruns]⟩

theorem Moves.kept (hm : Moves s s' t q) (hne : s.pc t ≠ .exit) : Kept s s' t where
  others T hT := hm.pc_of_ne hT
  done T r _ hd := by
    rcases hd with hd | hd
    · exact Or.inl (by rw [hm.alive]; exact hd)
    · have hT : T ≠ t := fun heq => hne (heq ▸ hd)
      exact Or.inr (by rw [hm.pc_of_ne hT]; exact hd)
  threads T r hr := ⟨by rw [hm.record]; exact hr, by rw [hm.self]⟩
  back T r hr := Or.inl (by rw [← hm.record]; exact hr)
  handle r hr _ := hm.handle r hr
  detached r _ hr := hm.detached r hr
  live r _ hr hn := hm.live r hr hn
  lock := hm.lock

theorem Inv.moves (hi : Inv s) (hm : Moves s s' t q) (hne : s.pc t ≠ .exit) (hlt : t < s.nextThread)
    (hplace : Apart s'.place) (hsub : ∀ p r, r ∈ s'.place p → ∃ p', r ∈ s.place p')
    (hfiled : ∀ r, r ∈ s'.registry ∨ r ∈ s'.detached → Filed s' r) (hq : PcOk s' t q)
    (hrecs : ∀ T r, s.record T = some r → RecOk s' T r) : Inv s' where
  apart := hplace
  known p r hr := by
    obtain ⟨p', hr'⟩ := hsub p r hr
    rw [hm.nextRun]
    exact hi.known p' r hr'
  unused T hT := by
    rw [hm.nextThread] at hT
    rw [hm.alive, hm.record, hm.pc_of_ne (Nat.ne_of_gt (Nat.lt_of_lt_of_le hlt hT))]
    exact hi.unused T hT
  bound T r hr := by
    rw [hm.record] at hr
    rw [hm.nextRun]
    exact hi.bound T r hr
  one T T' r hr hr' := by
    rw [hm.record] at hr hr'
    exact hi.one T T' r hr hr'
  filed := hfiled
  pcs T := by
    by_cases hT : T = t
    · subst hT
      rw [hm.pc_self]
      exact hq
    · exact (hm.kept hne).pcOk hi hT
  recs T r hr := hrecs T r (by rw [← hm.record]; exact hr)

theorem Inv.same (hi : Inv s) (hm : Moves s s' t q) (hne : s.pc t ≠ .exit) (hlt : t < s.nextThread)
    (hlists : s'.registry = s.registry ∧ s'.detached = s.detached ∧ s'.freed = s.freed)
    (hheld : q.held = (s.pc t).held) (hhandle : ∀ r, (s'.runs r).handle = (s.runs r).handle) (hq : PcOk s' t q)
    (hrecs : ∀ T r, s.record T = some r → RecOk s' T r) : Inv s' := by
  obtain ⟨hreg, hdet, hfreed⟩ := hlists
  have hplace : ∀ p, s'.place p = s.place p := by
    intro p
    cases p with
    | registry => exact hreg
    | detached => exact hdet
    | freed => exact hfreed
    | held T =>
      by_cases hT : T = t
      · subst hT
        exact (congrArg Pc.held hm.pc_self).trans hheld
      · exact congrArg Pc.held (hm.pc_of_ne hT)
  refine hi.moves hm hne hlt (hi.apart.congr hplace) (fun p r hr => ⟨p, hplace p ▸ hr⟩) (fun r hr => ?_) hq hrecs
  rw [hreg, hdet] at hr
  obtain ⟨T, hrec, hh⟩ := hi.filed r hr
  exact ⟨T, by rw [hm.record]; exact hrec, by rw [hhandle, hm.self]; exact hh⟩

theorem Inv.pass (hi : Inv s) (hpc : s'.pc = update s.pc t q)
    (hsame : s'.alive = s.alive ∧ s'.record = s.record ∧ s'.self = s.self ∧ s'.nextThread = s.nextThread ∧
      s'.nextRun = s.nextRun)
    (hruns : s'.runs = s.runs) (hlock : ∀ T, T ≠ t → s.lock = some T → s'.lock = some T) (hne : s.pc t ≠ .exit)
    (hlt : t < s.nextThread) (hlists : s'.registry = s.registry ∧ s'.detached = s.detached ∧ s'.freed = s.freed)
    (hheld : q.held = (s.pc t).held) (hq : PcOk s' t q) (hend : Ending (s.pc t) → Ending q ∨ q = .exit)
    (hswap : ∀ r, s.pc t ≠ .swapped r) : Inv s' := by
  have hm := moves_of_runs hpc hsame hruns hlock
  have hk := hm.kept hne
  refine hi.same hm hne hlt hlists hheld (fun r => by rw [hruns]) hq fun T r hr => ?_
  refine RecOk.kept hk hr (hi.recs T r hr) (by rw [hruns]) (by rw [hlists.2.1]; exact id) (by rw [hlists.2.2]; exact id)
    (fun he => ?_) (hswap r)
  rw [hm.pc_self]
  rcases hend he with he | he
  · exact Or.inl he
  · exact Or.inr (Or.inr (hm.pc_self.trans he))

theorem Inv.alive_lt (hi : Inv s) (hal : s.alive t = true) : t < s.nextThread := by
  by_contra hge
  rw [(hi.unused t (Nat.le_of_not_lt hge)).1] at hal
  cases hal

theorem not_ending_user : ¬Ending .user := by
  rintro ⟨rs, hp | hp⟩ <;> cases hp

/-! ### Threads that come and go -/

theorem die_inv (hi : Inv s) : Inv { s with alive := update s.alive t false } := by
  have hpc : s.pc s.nextThread = .user := (hi.unused s.nextThread le_rfl).2.2
  have hdone : ∀ T, Done s T → Done { s with alive := update s.alive t false } T := by
    rintro T (hd | hd)
    · by_cases hT : T = t
      · subst hT
        exact Or.inl (update_self _ _ _)
      · exact Or.inl (by dsimp only; rw [update_of_ne hT]; exact hd)
    · exact Or.inr hd
  have hk : Kept s { s with alive := update s.alive t false } s.nextThread :=
    ⟨fun _ _ => rfl, fun T _ _ hd => hdone T hd, fun _ _ hr => ⟨hr, rfl⟩, fun _ _ hr => Or.inl hr, fun _ _ _ => rfl,
      fun _ _ hr => hr, fun _ _ _ _ => rfl, fun _ _ hl => hl⟩
  refine ⟨hi.apart.congr fun p => by cases p <;> rfl, fun p r hr => hi.known p r (by cases p <;> exact hr), ?_, hi.bound,
    hi.one, hi.filed, ?_, ?_⟩
  · intro T hT
    obtain ⟨hal, hrest⟩ := hi.unused T hT
    refine ⟨?_, hrest⟩
    by_cases hTt : T = t
    · subst hTt
      exact update_self _ _ _
    · dsimp only
      rw [update_of_ne hTt, hal]
  · intro T
    by_cases hT : T = s.nextThread
    · subst hT
      dsimp only
      rw [hpc]
      trivial
    · exact hk.pcOk hi hT
  · intro T r hr
    refine RecOk.kept hk hr (hi.recs T r hr) rfl id id (fun he => ?_) (by rw [hpc]; simp)
    rw [hpc] at he
    exact absurd he not_ending_user

theorem seat_kept (hi : Inv s) {slot : Nat} {ro : Option Nat} (hnone : ∀ r, ro = some r → r ∈ (s.pc t).held)
    (hne : s.pc t ≠ .exit) : Kept s ((s.seat gens slot ro).setPc t q) t where
  others T hT := by
    refine (update_of_ne hT _ _).trans ?_
    by_cases hnew : T = s.nextThread
    · subst hnew
      exact (update_self _ _ _).trans (hi.unused s.nextThread le_rfl).2.2.symm
    · exact update_of_ne hnew _ _
  done T r hr hd := by
    have hlt := hi.thread_lt hr
    rcases hd with hd | hd
    · exact Or.inl ((update_of_ne (Nat.ne_of_lt hlt) _ _).trans hd)
    · have hT : T ≠ t := fun heq => hne (heq ▸ hd)
      refine Or.inr ((update_of_ne hT _ _).trans ?_)
      exact (update_of_ne (Nat.ne_of_lt hlt) _ _).trans hd
  threads T r hr := by
    have hlt := hi.thread_lt hr
    exact ⟨(update_of_ne (Nat.ne_of_lt hlt) _ _).trans hr, update_of_ne (Nat.ne_of_lt hlt) _ _⟩
  back T r hr := by
    by_cases hnew : T = s.nextThread
    · subst hnew
      have hro : update s.record s.nextThread ro s.nextThread = some r := hr
      rw [update_self] at hro
      exact Or.inr (hnone r hro)
    · have hold : update s.record s.nextThread ro T = some r := hr
      rw [update_of_ne hnew] at hold
      exact Or.inl hold
  handle r _ _ := rfl
  detached r _ hr := hr
  live r _ _ _ := rfl
  lock T _ hl := hl

theorem seat_inv (hi : Inv s) {slot : Nat} {ro : Option Nat} (hfresh : ∀ r, ro = some r → ∀ T, s.record T ≠ some r)
    (hlive : ∀ r, ro = some r → (s.runs r).state = .live ∧ r < s.nextRun ∧ r ∉ s.freed)
    (hk : Kept s ((s.seat gens slot ro).setPc t q) t) (hheld : q.held = (s.pc t).held)
    (hq : PcOk ((s.seat gens slot ro).setPc t q) t q) (ht : t ≤ s.nextThread)
    (hend : ¬Ending (s.pc t)) (hswap : ∀ r, s.pc t ≠ .swapped r)
    (hnew : ∀ r, ro = some r → r ∈ (s.pc t).held) : Inv ((s.seat gens slot ro).setPc t q) := by
  obtain ⟨s', hs'⟩ : ∃ s', s' = (s.seat gens slot ro).setPc t q := ⟨_, rfl⟩
  have hrecord : s'.record = update s.record s.nextThread ro := by rw [hs']; rfl
  have hpcs : s'.pc t = q := by rw [hs']; exact update_self _ _ _
  have hrest : s'.runs = s.runs ∧ s'.registry = s.registry ∧ s'.detached = s.detached ∧ s'.freed = s.freed ∧
      s'.nextRun = s.nextRun ∧ s'.nextThread = s.nextThread + 1 := by
    rw [hs']
    exact ⟨rfl, rfl, rfl, rfl, rfl, rfl⟩
  have halive : ∀ T, s.nextThread < T → s'.alive T = s.alive T := by
    intro T hT
    rw [hs']
    exact update_of_ne (Nat.ne_of_gt hT) _ _
  rw [← hs'] at hk hq ⊢
  obtain ⟨hruns, hreg, hdet, hfreed, hnr, hnt⟩ := hrest
  have hback : ∀ T r, s'.record T = some r → s.record T = some r ∨ (T = s.nextThread ∧ ro = some r) := by
    intro T r hr
    rw [hrecord] at hr
    by_cases hT : T = s.nextThread
    · subst hT
      rw [update_self] at hr
      exact Or.inr ⟨rfl, hr⟩
    · rw [update_of_ne hT] at hr
      exact Or.inl hr
  have hplace : ∀ p, s'.place p = s.place p := by
    intro p
    cases p with
    | registry => exact hreg
    | detached => exact hdet
    | freed => exact hfreed
    | held T =>
      by_cases hT : T = t
      · subst hT
        exact (congrArg Pc.held hpcs).trans hheld
      · exact congrArg Pc.held (hk.others T hT)
  refine ⟨hi.apart.congr hplace, fun p r hr => ?_, fun T hT => ?_, fun T r hr => ?_, fun T T' r hr hr' => ?_,
    fun r hr => ?_, fun T => ?_, fun T r hr => ?_⟩
  · rw [hplace] at hr
    rw [hnr]
    exact hi.known p r hr
  · rw [hnt] at hT
    have hlt : s.nextThread < T := hT
    obtain ⟨hal, hrec, hpc⟩ := hi.unused T (Nat.le_of_lt hlt)
    refine ⟨(halive T hlt).trans hal, ?_, ?_⟩
    · rw [hrecord, update_of_ne (Nat.ne_of_gt hlt)]
      exact hrec
    · rw [hk.others T (Nat.ne_of_gt (Nat.lt_of_le_of_lt ht hlt))]
      exact hpc
  · rw [hnr]
    rcases hback T r hr with hr | ⟨-, hr⟩
    · exact hi.bound T r hr
    · exact (hlive r hr).2.1
  · rcases hback T r hr with hr | ⟨hT, hr⟩
    · rcases hback T' r hr' with hr' | ⟨-, hr'⟩
      · exact hi.one T T' r hr hr'
      · exact absurd hr (hfresh r hr' T)
    · rcases hback T' r hr' with hr' | ⟨hT', -⟩
      · exact absurd hr' (hfresh r hr T')
      · exact hT.trans hT'.symm
  · rw [hreg, hdet] at hr
    obtain ⟨T, hrec, hh⟩ := hi.filed r hr
    obtain ⟨hrec', hself⟩ := hk.threads T r hrec
    exact ⟨T, hrec', by rw [hruns, hself, hh]⟩
  · by_cases hT : T = t
    · subst hT
      rw [hpcs]
      exact hq
    · exact hk.pcOk hi hT
  · rcases hback T r hr with hold | ⟨-, hro⟩
    · exact RecOk.kept hk hold (hi.recs T r hold) (by rw [hruns]) (by rw [hdet]; exact id) (by rw [hfreed]; exact id)
        (fun he => absurd he hend) (hswap r)
    · obtain ⟨hst, -, hnf⟩ := hlive r hro
      refine ⟨fun h => ?_, fun h => ?_, fun h => ?_⟩
      · rw [hruns, hst] at h
        cases h
      · rw [hruns, hst] at h
        cases h
      · rw [hfreed] at h
        exact absurd h hnf

theorem spawn_inv (hi : Inv s) {slot : Nat} : Inv (s.seat gens slot none) := by
  have hpc : s.pc s.nextThread = .user := (hi.unused s.nextThread le_rfl).2.2
  have heq : (s.seat gens slot none) = (s.seat gens slot none).setPc s.nextThread .user := by
    simp [St.seat, St.setPc]
  have hk : Kept s ((s.seat gens slot none).setPc s.nextThread .user) s.nextThread :=
    seat_kept hi (fun _ h => by cases h) (by rw [hpc]; simp)
  rw [heq]
  refine seat_inv hi (fun _ h => by cases h) (fun _ h => by cases h) hk ?_ trivial le_rfl ?_ ?_ fun _ h => by cases h
  · rw [hpc]
  · rw [hpc]
    exact not_ending_user
  · rw [hpc]
    simp

theorem start_step_inv (hi : Inv s) (hal : s.alive t = true) {slot : Nat} (hp : s.pc t = .create r) :
    Inv ((s.seat gens slot (some r)).setPc t (.started r ⟨slot, (s.gens slot + 1) % gens⟩)) := by
  have hheld : r ∈ (s.pc t).held := by
    rw [hp]
    exact List.mem_singleton_self r
  have hok := hi.pcs t
  rw [hp] at hok
  have hfreed : r ∉ s.freed := fun hf => by
    cases hi.apart.apart (.held t) .freed r hheld hf
  refine seat_inv hi (fun r' h => ?_) (fun r' h => ?_) (seat_kept hi (fun r' h => ?_) (by rw [hp]; simp)) (by rw [hp]; rfl)
    ?_ (Nat.le_of_lt (hi.alive_lt hal)) ?_ (by rw [hp]; simp) fun r' h => ?_
  · cases h
    exact hok.1
  · cases h
    exact ⟨hok.2, hi.known (.held t) r hheld, hfreed⟩
  · cases h
    exact hheld
  · exact ⟨s.nextThread, update_self _ _ _, update_self _ _ _⟩
  · rw [hp]
    rintro ⟨rs, h | h⟩ <;> cases h
  · cases h
    exact hheld

theorem alloc_inv (hi : Inv s) (hal : s.alive t = true) (hp : s.pc t = .user) :
    Inv { s.setPc t (.create s.nextRun) with
        runs := update s.runs s.nextRun ⟨none, .live⟩
        nextRun := s.nextRun + 1 } := by
  have hold : ∀ r, r < s.nextRun → update s.runs s.nextRun ⟨none, .live⟩ r = s.runs r :=
    fun r hr => update_of_ne (Nat.ne_of_lt hr) _ _
  have hnone : ∀ T, s.record T ≠ some s.nextRun := fun T hr => Nat.lt_irrefl _ (hi.bound T _ hr)
  have hk : Kept s { s.setPc t (.create s.nextRun) with
        runs := update s.runs s.nextRun ⟨none, .live⟩
        nextRun := s.nextRun + 1 } t := by
    refine ⟨fun T hT => update_of_ne hT _ _, fun T r _ hd => ?_, fun _ _ hr => ⟨hr, rfl⟩, fun _ _ hr => Or.inl hr,
      fun r _ hr => congrArg Run.handle (hold r hr), fun r hr h => ?_, fun r hr _ _ => congrArg Run.state (hold r hr),
      fun _ _ hl => hl⟩
    · rcases hd with hd | hd
      · exact Or.inl hd
      · have hT : T ≠ t := by
          rintro rfl
          rw [hp] at hd
          cases hd
        exact Or.inr ((update_of_ne hT _ _).trans hd)
    · exact (congrArg Run.state (hold r hr)).trans h
  have hplace : ∀ p, p ≠ .held t → ∀ l, { s.setPc t (.create s.nextRun) with
        runs := update s.runs s.nextRun ⟨none, .live⟩
        nextRun := s.nextRun + 1 }.place p = l ↔ s.place p = l := by
    intro p hp' l
    cases p with
    | held T =>
      have hT : T ≠ t := fun heq => hp' (by rw [heq])
      have heq : update s.pc t (.create s.nextRun) T = s.pc T := update_of_ne hT _ _
      exact Iff.of_eq (congrArg (fun x => Pc.held x = l) heq)
    | _ => exact Iff.rfl
  have hself : { s.setPc t (.create s.nextRun) with
        runs := update s.runs s.nextRun ⟨none, .live⟩
        nextRun := s.nextRun + 1 }.place (.held t) = [s.nextRun] := by
    change (update s.pc t (.create s.nextRun) t).held = [s.nextRun]
    rw [update_self]
    rfl
  refine ⟨hi.apart.change (p := .held t) (fun x hx => ((hplace x hx _).mpr rfl)) ?_ ?_, ?_, ?_, ?_, hi.one, ?_, ?_, ?_⟩
  · rw [hself]
    exact List.nodup_singleton _
  · intro r hr
    rw [hself] at hr
    obtain rfl := List.mem_singleton.mp hr
    exact Or.inr fun x hx => Nat.lt_irrefl _ (hi.known x _ hx)
  · intro p r hr
    by_cases hpt : p = .held t
    · subst hpt
      rw [hself] at hr
      obtain rfl := List.mem_singleton.mp hr
      exact Nat.lt_succ_self _
    · rw [(hplace p hpt _).mpr rfl] at hr
      exact Nat.lt_succ_of_lt (hi.known p r hr)
  · intro T hT
    obtain ⟨h1, h2, h3⟩ := hi.unused T hT
    have hTt : T ≠ t := Nat.ne_of_gt (Nat.lt_of_lt_of_le (hi.alive_lt hal) hT)
    exact ⟨h1, h2, (update_of_ne hTt _ _).trans h3⟩
  · intro T r hr
    exact Nat.lt_succ_of_lt (hi.bound T r hr)
  · intro r hr
    obtain ⟨T, hrec, hh⟩ := hi.filed r hr
    exact ⟨T, hrec, (congrArg Run.handle (hold r (hi.bound T r hrec))).trans hh⟩
  · intro T
    by_cases hT : T = t
    · subst hT
      have hnew : PcOk { s.setPc T (.create s.nextRun) with
          runs := update s.runs s.nextRun ⟨none, .live⟩
          nextRun := s.nextRun + 1 } T (.create s.nextRun) := by
        refine ⟨hnone, ?_⟩
        dsimp only
        rw [update_self]
      change PcOk _ T (update s.pc T (.create s.nextRun) T)
      rw [update_self]
      exact hnew
    · exact hk.pcOk hi hT
  · intro T r hr
    refine RecOk.kept hk hr (hi.recs T r hr) (congrArg Run.state (hold r (hi.bound T r hr))) id id (fun he => ?_) ?_
    · rw [hp] at he
      exact absurd he not_ending_user
    · rw [hp]
      simp

end Gthr
end KickOS
