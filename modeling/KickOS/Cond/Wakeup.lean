import KickOS.Cond.Run

/-! No wakeup of the condition variable is lost. -/

namespace KickOS
namespace Cond
open Kernel Mutex

variable {x y z : Sys} {key mk : Key} {t u b : Tid} {v w : Word} {s : Kernel} {p : Pc} {i n : Nat}

/-- What a step can do to the waits: a release starts the next one, and only a thread in front of the kernel that has
seen every advance parks. -/
structure Effect (key : Key) (x y : Sys) : Prop where
  grew : x.bumps ≤ y.bumps
  next : ∀ t, y.releases t = x.releases t + 1 ∨ y.releases t = x.releases t ∧
    (t ∈ y.k.waitersOf key → t ∈ x.k.waitersOf key ∨ (x.pc t).past = true ∧ x.readNo t = x.bumps) ∧
    ((y.pc t).past = true → (x.pc t).past = true ∧ y.readNo t = x.readNo t)

theorem Effect.quiet (hb : x.bumps ≤ y.bumps) (hr : y.releases = x.releases) (hn : y.readNo = x.readNo)
    (hw : ∀ t ∈ y.k.waitersOf key, t ∈ x.k.waitersOf key) (hp : ∀ t, (y.pc t).past = true → (x.pc t).past = true) :
    Effect key x y :=
  ⟨hb, fun t => .inr ⟨by rw [hr], fun ht => .inl (hw t ht), fun ht => ⟨hp t ht, by rw [hn]⟩⟩⟩

theorem past_goto (hp : p.past = true → (x.pc t).past = true) (hu : ((x.goto t p).pc u).past = true) :
    (x.pc u).past = true := by
  rw [goto_pc] at hu
  split_ifs at hu with hut
  · rw [hut]; exact hp hu
  · exact hu

theorem Effect.goto (hp : p.past = true → (x.pc t).past = true) (hb : x.bumps ≤ y.bumps) (hr : y.releases = x.releases)
    (hn : y.readNo = x.readNo) (hpc : y.pc = (x.goto t p).pc) (hw : ∀ u ∈ y.k.waitersOf key, u ∈ x.k.waitersOf key) :
    Effect key x y :=
  .quiet hb hr hn hw fun u hu => by
    rw [hpc] at hu
    exact past_goto hp hu

theorem Effect.release {q : Nat} (hy : y = { x.release t q with k := y.k, loaded := y.loaded })
    (hw : ∀ u ∈ y.k.waitersOf key, u ∈ x.k.waitersOf key) : Effect key x y := by
  refine ⟨by rw [hy]; exact Nat.le_refl _, fun u => ?_⟩
  by_cases hut : u = t
  · subst hut
    rw [hy]
    exact .inl (by simp [Sys.release])
  · refine .inr ⟨by rw [hy]; simp [Sys.release, hut], fun hu => .inl (hw u hu), fun hu => ?_⟩
    rw [hy] at hu ⊢
    exact ⟨by simpa [Sys.release, hut] using hu, rfl⟩

theorem Inv.mem_spared (h : Inv key mk x) (ho : Orderly s [] none) (hs : Spares x.k s key) :
    ∀ u ∈ s.waitersOf key, u ∈ x.k.waitersOf key := fun _ hu => hs.mem h.orderly.recorded ho.recorded hu

theorem spares_kosMutexUnlock (hk : mk ≠ key) : Spares s (s.kosMutexUnlock t mk).1 key := by
  unfold Kernel.kosMutexUnlock
  split_ifs
  · exact .setWord hk
  · exact .refl _ _
  · exact .refl _ _

theorem spares_kosMutexLock (hk : mk ≠ key) : Spares s (s.kosMutexLock t mk).1 key := by
  unfold Kernel.kosMutexLock
  split_ifs
  · exact .setWord hk
  · exact .refl _ _
  · exact .refl _ _

theorem Inv.effect_spared {l : Option (Tid × Key × Word)} (h : Inv key mk x) (ho : Orderly s [] none)
    (hs : Spares x.k s key) : Effect key x { x with k := s, loaded := l } :=
  .quiet (Nat.le_refl _) rfl rfl (h.mem_spared ho hs) fun _ hu => hu

theorem past_retaken (r : Answer) : (retaken r).past = false := by
  unfold retaken
  split_ifs <;> rfl

theorem Inv.effect_enterWait {q : Nat} {passed : Bool} {d : Option Nat} (h : Inv key mk x) (hl : x.loaded = none)
    (hr : Running x.k t) (hp : x.pc t = .entering q) (hg : x.bumps < x.readNo t + 2 ^ 31) :
    Effect key x (x.enterWait key t q passed d) := by
  have hpast : (x.pc t).past = true := by rw [hp]; rfl
  obtain ⟨-, hpark⟩ := h.enterWait passed d hl hr hp hg
  have hshape : ∃ s p, p.past = false ∧ x.enterWait key t q passed d = { x.goto t p with k := s } := by
    unfold Sys.enterWait
    rcases x.k.wordWait t (.ok key) ⟨q, true⟩ passed d with ⟨s, r | _ | _⟩
    · exact ⟨s, waited r, rfl, rfl⟩
    · exact ⟨s, .inside, rfl, rfl⟩
    · exact ⟨s, .inside, rfl, rfl⟩
  obtain ⟨s, p, hpp, heq⟩ := hshape
  rw [heq] at hpark ⊢
  refine ⟨Nat.le_refl _, fun u => .inr ⟨rfl, fun hu => ?_, fun hu => ⟨past_goto (by simp [hpp]) hu, rfl⟩⟩⟩
  rcases hpark u hu with hu | ⟨rfl, hseen⟩
  · exact .inl hu
  · exact .inr ⟨hpast, hseen⟩

theorem Inv.mem_wakeAttempt {n units : Nat} (h : Inv key mk x)
    (hu : u ∈ (x.k.wakeAttempt (.ok key) v n units).1.waitersOf key) : u ∈ x.k.waitersOf key := by
  rcases h.orderly.wakeAttempt_cases v n units h.isPlain with ⟨heq, -⟩ | ⟨-, W, -, -, -, -, hwoke⟩
  · rwa [heq] at hu
  · exact ((hwoke.waiters u key).mp hu).1

theorem Inv.effect_commitWake {all : Bool} (h : Inv key mk x) : Effect key x (x.commitWake key t v n all) := by
  have hmem : ∀ u ∈ (x.k.wakeAttempt (.ok key) v (if all then 2 ^ 32 - 1 else 1) 0).1.waitersOf key, u ∈ x.k.waitersOf key :=
    fun _ hu => h.mem_wakeAttempt hu
  unfold Sys.commitWake
  rcases hres : x.k.wakeAttempt (.ok key) v (if all then 2 ^ 32 - 1 else 1) 0 with ⟨s, r⟩
  rw [hres] at hmem
  rcases r with r | _ | _
  · exact .goto (p := .out) (by simp [Pc.past]) (Nat.le_refl _) rfl rfl rfl hmem
  · exact .quiet (Nat.le_refl _) rfl rfl hmem fun _ hu => hu
  · exact .quiet (Nat.le_refl _) rfl rfl hmem fun _ hu => hu

theorem effect_advance {all : Bool} : Effect key x (x.advance key t v all) := by
  by_cases hw : x.k.words key = v
  · rw [Sys.advance, if_pos hw]
    refine .goto (t := t) (p := if v.waiters then .waking (x.bumps + 1) all else .out) (fun hp => ?_) (Nat.le_succ _) rfl rfl
      rfl fun _ hu => hu
    split_ifs at hp <;> cases hp
  · rw [Sys.advance, if_neg hw]
    exact .goto (by simp [Pc.past]) (Nat.le_refl _) rfl rfl rfl fun _ hu => hu

theorem Step.effect (hs : Step key mk x y) (h : Inv key mk x) : Effect key x y := by
  have hinv := hs.inv h
  cases hs with
  | read t hr hp =>
    refine ⟨Nat.le_refl _, fun u => .inr ⟨rfl, fun hu => .inl hu, fun hu => ?_⟩⟩
    have hut : u ≠ t := by
      rintro rfl
      simp [Sys.read, Pc.past] at hu
    exact ⟨by simpa [Sys.read, hut] using hu, by simp [Sys.read, hut]⟩
  | userRelease t q hr hp =>
    have hspare := spares_kosMutexUnlock (s := x.k) (t := t) h.apart
    unfold Sys.userRelease at hinv ⊢
    rcases hres : x.k.kosMutexUnlock t mk with ⟨s, r⟩
    rw [hres] at hspare hinv
    rcases r with _ | _ | _
    · exact .goto (p := .unlocking q) (by simp [Pc.past]) (Nat.le_refl _) rfl rfl rfl (h.mem_spared hinv.orderly hspare)
    · exact .goto (p := .out) (by simp [Pc.past]) (Nat.le_refl _) rfl rfl rfl (h.mem_spared hinv.orderly hspare)
    · exact .release rfl (h.mem_spared hinv.orderly hspare)
  | release t q v hl hp =>
    have hspare := h.orderly.spares_unlockAttempt (v := v) (h.busy t mk v hl).1 h.apart
    unfold Sys.commitRelease at hinv ⊢
    rcases hres : x.k.unlockAttempt t (.ok mk) v with ⟨s, r⟩
    rw [hres] at hspare hinv
    rcases r with (_ | _) | _ | _
    · exact .goto (p := .out) (by simp [Pc.past]) (Nat.le_refl _) rfl rfl rfl (h.mem_spared hinv.orderly hspare)
    · exact .release rfl (h.mem_spared hinv.orderly hspare)
    · exact .quiet (Nat.le_refl _) rfl rfl (h.mem_spared hinv.orderly hspare) fun _ hu => hu
    · exact .quiet (Nat.le_refl _) rfl rfl (h.mem_spared hinv.orderly hspare) fun _ hu => hu
  | mark t q hr hp =>
    unfold Sys.mark
    split_ifs
    · exact .goto (p := .entering q) (fun _ => by rw [hp]; rfl) (Nat.le_refl _) rfl rfl rfl fun _ hu => hu
    · exact .goto (p := .entering q) (fun _ => by rw [hp]; rfl) (Nat.le_refl _) rfl rfl rfl fun _ hu => hu
    · exact .goto (p := .retake false) (by simp [Pc.past]) (Nat.le_refl _) rfl rfl rfl fun _ hu => hu
  | wait t q passed deadline hl hr hn hp hg => exact h.effect_enterWait hl hr hp hg
  | resume t hr hp => exact .goto (by simp [waited, Pc.past]) (Nat.le_refl _) rfl rfl rfl fun _ hu => hu
  | userRetake t hr hp =>
    have hspare := spares_kosMutexLock (s := x.k) (t := t) h.apart
    unfold Sys.userRetake at hinv ⊢
    rcases hres : x.k.kosMutexLock t mk with ⟨s, r⟩
    rw [hres] at hspare hinv
    rcases r with _ | r
    · exact .goto (p := .retake true) (by simp [Pc.past]) (Nat.le_refl _) rfl rfl rfl (h.mem_spared hinv.orderly hspare)
    · exact .goto (by simp [past_retaken]) (Nat.le_refl _) rfl rfl rfl (h.mem_spared hinv.orderly hspare)
  | retake t couldHold v hl hn hp =>
    have hspare := h.orderly.spares_lockAttempt couldHold v false none (h.busy t mk v hl).1 h.apart
    unfold Sys.commitRetake at hinv ⊢
    rcases hres : x.k.lockAttempt t (.ok mk) couldHold v false none with ⟨s, r⟩
    rw [hres] at hspare hinv
    rcases r with r | _ | _
    · exact .goto (by simp [past_retaken]) (Nat.le_refl _) rfl rfl rfl (h.mem_spared hinv.orderly hspare)
    · exact .goto (p := .relocking) (by simp [Pc.past]) (Nat.le_refl _) rfl rfl rfl (h.mem_spared hinv.orderly hspare)
    · exact h.effect_spared hinv.orderly hspare
  | retaken t hr hp => exact .goto (by simp [past_retaken]) (Nat.le_refl _) rfl rfl rfl fun _ hu => hu
  | call t all hr hp => exact .goto (by simp [Pc.past]) (Nat.le_refl _) rfl rfl rfl fun _ hu => hu
  | advance t v all hr hp => exact effect_advance
  | wake t v n all hl hp => exact h.effect_commitWake
  | userLock t hr hp => exact h.effect_spared hinv.orderly (spares_kosMutexLock h.apart)
  | userUnlock t hr hp => exact h.effect_spared hinv.orderly (spares_kosMutexUnlock h.apart)
  | lock t couldHold v passed deadline hl hn hp =>
    exact h.effect_spared hinv.orderly (h.orderly.spares_lockAttempt couldHold v passed deadline (h.busy t mk v hl).1 h.apart)
  | unlock t v hl hp =>
    exact h.effect_spared hinv.orderly (h.orderly.spares_unlockAttempt (h.busy t mk v hl).1 h.apart)
  | load t k hl hr hd hp => exact .quiet (Nat.le_refl _) rfl rfl (fun _ hu => hu) fun _ hu => hu
  | timeout t hl ht => exact h.effect_spared hinv.orderly (h.orderly.spares_timerExpire ht)
  | cancel t kind hl => exact h.effect_spared hinv.orderly h.orderly.spares_threadCancelKind
  | die c hl hc => exact h.effect_spared hinv.orderly (h.ownerExit hc.runnable).2
  | finish c hl hc hd hh => exact h.effect_spared hinv.orderly (.of_core (pickAndSeat_core.trans retire_core))
  | rotate c hl hc => exact h.effect_spared hinv.orderly (.of_core (pickAndSeat_core.trans rqRotate_core))
  | pass hl => exact h.effect_spared hinv.orderly (.of_core pickAndSeat_core)

/-! ### Waits that are over -/

/-- Wait `i` of `t` is over, or an advance behind its read will turn it away. -/
def Gone (key : Key) (x : Sys) (t : Tid) (i : Nat) : Prop :=
  i ≤ x.releases t ∧
    (x.releases t = i → t ∉ x.k.waitersOf key ∧ ((x.pc t).past = true → x.readNo t < x.bumps))

/-- Wait `i` of `t` got as far as the kernel. -/
def Entered (x : Sys) (t : Tid) (i : Nat) : Prop := i ≤ x.releases t ∧ (x.releases t = i → (x.pc t).past = false)

theorem Effect.gone (he : Effect key x y) (h : Gone key x t i) : Gone key y t i := by
  obtain ⟨hle, hgone⟩ := h
  rcases he.next t with hn | ⟨hn, hw, hp⟩
  · exact ⟨by omega, fun h => by omega⟩
  · refine ⟨by omega, fun hi => ?_⟩
    obtain ⟨hout, hlate⟩ := hgone (by omega)
    refine ⟨fun hm => ?_, fun hpast => ?_⟩
    · rcases hw hm with hm | ⟨hpast, hread⟩
      · exact hout hm
      · have := hlate hpast
        omega
    · obtain ⟨hpast, hread⟩ := hp hpast
      have := hlate hpast
      have := he.grew
      omega

theorem Effect.entered (he : Effect key x y) (h : Entered x t i) : Entered y t i := by
  obtain ⟨hle, hent⟩ := h
  rcases he.next t with hn | ⟨hn, -, hp⟩
  · exact ⟨by omega, fun h => by omega⟩
  · refine ⟨by omega, fun hi => ?_⟩
    have := hent (by omega)
    by_contra hpast
    rw [Bool.not_eq_false] at hpast
    rw [(hp hpast).1] at this; cases this

theorem run_induct {P : Sys → Prop} (hP : ∀ x y, Effect key x y → P x → P y)
    (hr : Relation.ReflTransGen (Step key mk) x y) (h : Inv key mk x) (hx : P x) : Inv key mk y ∧ P y := by
  induction hr with
  | refl => exact ⟨h, hx⟩
  | tail _ hs ih => exact ⟨hs.inv ih.1, hP _ _ (hs.effect ih.1) ih.2⟩

theorem Gone.settled (hg : Gone key x t i) (h : Inv key mk x) : Settled key mk x t i := by
  rintro y hr ⟨hm, hi⟩
  obtain ⟨-, -, hg'⟩ := run_induct (P := fun z => Gone key z t i) (fun _ _ he hg => he.gone hg) hr h hg
  exact (hg' hi).1 hm

theorem Pending.gone_advance (hp : Pending x t i) (h : Inv key mk x) (hw : x.k.words key = v)
    (ht : t ∉ x.k.waitersOf key) : Gone key (x.advance key b v false) t i := by
  rw [Sys.advance, if_pos hw]
  refine ⟨Nat.le_of_eq hp.1.symm, fun _ => ⟨ht, fun _ => ?_⟩⟩
  exact Nat.lt_succ_of_le (h.reads t)

theorem Inv.entered_advance (h : Inv key mk x) (ht : t ∈ x.k.waitersOf key) (hi : x.releases t = i)
    (hb : x.pc b = .bump v false) (hw : x.k.words key = v) : Entered (x.advance key b v false) t i := by
  have hin := h.inside t ht
  have htb : t ≠ b := by
    rintro rfl
    rw [hb] at hin; cases hin
  rw [Sys.advance, if_pos hw]
  refine ⟨Nat.le_of_eq hi.symm, fun _ => ?_⟩
  show ((x.goto b _).pc t).past = false
  rw [goto_pc, if_neg htb, hin]
  rfl

theorem Inv.commitWake_wakes (h : Inv key mk x) (hp : x.pc b = .waking n false)
    (hout : (x.commitWake key b v n false).pc b = .out) :
    x.k.waitersOf key = [] ∨ ∃ u ∈ x.k.waitersOf key, Gone key (x.commitWake key b v n false) u (x.releases u) := by
  have hcases := h.orderly.wakeAttempt_cases v 1 0 h.isPlain
  unfold Sys.commitWake at hout ⊢
  simp only [Bool.false_eq_true, ↓reduceIte] at hout ⊢
  rcases hres : x.k.wakeAttempt (.ok key) v 1 0 with ⟨s, r⟩
  rw [hres] at hcases hout
  dsimp only at hcases
  rcases hcases with ⟨rfl, ⟨-, hu⟩ | rfl⟩ | ⟨-, W, hlen, hsub, -, rfl, hwoke⟩
  · exact absurd hu (Nat.lt_irrefl 0)
  · rw [show ({ x with loaded := none } : Sys).pc b = x.pc b from rfl, hp] at hout; cases hout
  · rcases W with _ | ⟨u, W⟩
    · left
      refine List.eq_nil_of_length_eq_zero ?_
      rw [List.length_nil] at hlen
      omega
    · have hu := hsub u (by simp)
      refine .inr ⟨u, hu, Nat.le_refl _, fun _ => ⟨fun hm => ?_, fun hpast => ?_⟩⟩
      · exact ((hwoke.waiters u key).mp hm).2 (by simp)
      · have hin := h.inside u hu
        have hub : u ≠ b := by
          rintro rfl
          rw [hp] at hin; cases hin
        change ((x.goto b .out).pc u).past = true at hpast
        rw [goto_pc, if_neg hub, hin] at hpast; cases hpast

/-- A broadcast that has returned left nobody parked that released the mutex in front of its advance. A signal whose
advance met a thread between its release and its return from the kernel ends such a wait: that of a thread that was
there, or of one parked when it woke. -/
theorem no_lost_wakeup (h : Reachable key mk x) :
    (∀ n ∈ x.broadcasts, ∀ t, x.releaseNo t < n → t ∉ x.k.waitersOf key) ∧
    ∀ b v, Ready x b → x.pc b = .bump v false → x.k.words key = v → ∀ t i, Pending x t i →
      (v.waiters = false → (x.advance key b v false).pc b = .out ∧
        ∃ u j, Pending x u j ∧ Settled key mk (x.advance key b v false) u j) ∧
      (v.waiters = true → (x.advance key b v false).pc b = .waking (x.bumps + 1) false ∧
        ∀ z w, Relation.ReflTransGen (Step key mk) (x.advance key b v false) z → z.pc b = .waking (x.bumps + 1) false →
          z.loaded = some (b, key, w) → (z.commitWake key b w (x.bumps + 1) false).pc b = .out →
          ∃ u j, (Pending x u j ∨ Pending z u j) ∧ Settled key mk (z.commitWake key b w (x.bumps + 1) false) u j) := by
  have hi := h.inv
  refine ⟨fun n hn t ht hm => absurd (hi.late t hm n hn) (by omega), fun b v hr hb hw t i hp => ?_⟩
  have hnext := hi.advance v false hr
  constructor
  · intro hbit
    have hnone : t ∉ x.k.waitersOf key := fun hm => by
      have := hi.bit t hm
      rw [hw, hbit] at this; cases this
    refine ⟨by simp [Sys.advance, hw, hbit], t, i, hp, (hp.gone_advance hi hw hnone).settled hnext⟩
  · intro hbit
    refine ⟨by simp [Sys.advance, hw, hbit], fun z w hz hzb hl hout => ?_⟩
    have hstep : Step key mk z (z.commitWake key b w (x.bumps + 1) false) := .wake z b w _ false hl hzb
    by_cases hm : t ∈ x.k.waitersOf key
    · -- parked at the advance: the wake takes it or another, or it has left
      obtain ⟨hzi, hent⟩ := run_induct (P := fun z => Entered z t i) (fun _ _ he hx => he.entered hx) hz hnext
        (hi.entered_advance hm hp.1 hb hw)
      rcases hzi.commitWake_wakes hzb hout with hnil | ⟨u, hu, hg⟩
      · have hg : Gone key z t i := ⟨hent.1, fun hi' => ⟨by rw [hnil]; simp,
            fun hpast => by rw [hent.2 hi'] at hpast; cases hpast⟩⟩
        exact ⟨t, i, .inl hp, ((hstep.effect hzi).gone hg).settled (hstep.inv hzi)⟩
      · exact ⟨u, z.releases u, .inr ⟨rfl, .inr (.inr (hzi.inside u hu))⟩, hg.settled (hstep.inv hzi)⟩
    · -- in front of the kernel at the advance: turned away by it
      obtain ⟨hzi, hg⟩ := run_induct (P := fun z => Gone key z t i) (fun _ _ he hx => he.gone hx) hz hnext
        (hp.gone_advance hi hw hm)
      exact ⟨t, i, .inl hp, ((hstep.effect hzi).gone hg).settled (hstep.inv hzi)⟩

theorem ready_of_idle (hr : x.k.Runnable t) (hd : (x.k.thr t).dying = false) (hl : x.loaded = none) : Ready x t :=
  ⟨hr, hd, fun c k v hc => by rw [hl] at hc; cases hc⟩

/-- The high thread of the pair parked in a wait on word 7, its mutex in word 9 released. -/
def waiting : Sys :=
  ((((({ k := (pair.reschedule.kosMutexLock 1 9).1 } : Sys).read 7 1).userRelease 9 1 0).mark 7 1 0).enterWait 7 1 0 false
    none)

theorem waiting_reachable : Reachable 7 9 waiting := by
  have h0 : Reachable 7 9 _ := .boot pair pair_boot rfl (by decide)
  have h1 := Reachable.step _ _ h0 (.pass _ rfl)
  have h2 := Reachable.step _ _ h1 (.userLock _ 1 (ready_of_idle (.inr (by decide)) (by decide) rfl) rfl)
  have h3 := Reachable.step _ _ h2 (.read _ 1 (ready_of_idle (.inr (by decide)) (by decide) rfl) rfl)
  have h4 := Reachable.step _ _ h3
    (.userRelease _ 1 0 (ready_of_idle (.inr (by decide)) (by decide) rfl) (by decide))
  have h5 := Reachable.step _ _ h4
    (.mark _ 1 0 (ready_of_idle (.inr (by decide)) (by decide) (by decide)) (by decide))
  exact .step _ _ h5 (.wait _ 1 0 false none (by decide) ⟨by decide, by decide⟩ (by decide) (by decide) (by decide))

def signalling : Sys := waiting.goto 0 (.bump (waiting.k.words 7) false)

/-- The low thread in the kernel, with the word it loaded. -/
def signalled : Sys :=
  { signalling.advance 7 0 (waiting.k.words 7) false with
    loaded := some (0, 7, (signalling.advance 7 0 (waiting.k.words 7) false).k.words 7) }

theorem no_lost_wakeup_signalled : waiting.k.waitersOf 7 = [1] ∧
    (signalled.commitWake 7 0 (signalled.k.words 7) 1 false).k.waitersOf 7 = [] ∧
    ∃ u j, (Pending signalling u j ∨ Pending signalled u j) ∧
      Settled 7 9 (signalled.commitWake 7 0 (signalled.k.words 7) 1 false) u j := by
  have hready : Ready signalling 0 := ready_of_idle (.inr (by decide)) (by decide) (by decide)
  have hpend : Pending signalling 1 1 := ⟨by decide, .inr (.inr (by decide))⟩
  have h1 := Reachable.step _ _ waiting_reachable
    (.call _ 0 false (ready_of_idle (.inr (by decide)) (by decide) (by decide)) (by decide))
  have hload : Step 7 9 (signalling.advance 7 0 (waiting.k.words 7) false) signalled :=
    .load _ 0 7 (by decide) ⟨by decide, by decide⟩ (by decide) (by decide)
  obtain ⟨-, hsignal⟩ := no_lost_wakeup (x := signalling) h1
  obtain ⟨-, hwoken⟩ := hsignal 0 (waiting.k.words 7) hready (by decide) (by decide) 1 1 hpend
  exact ⟨by decide, by decide, (hwoken (by decide)).2 signalled _ (.single hload) (by decide) (by decide) (by decide)⟩

end Cond
end KickOS
