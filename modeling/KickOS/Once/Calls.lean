import KickOS.Once.Run

/-! The calls over the kernel's waits and wakes, and what every run of them keeps. -/

namespace KickOS
namespace Once
open Kernel Mutex
open Function (update update_of_ne update_self)

variable {x y : Sys} {key : Key} {t u : Tid} {v w : Word} {p : Pc}

/-- Somebody is parked on the word, or past the kernel's look at it and not yet parked. -/
def Sys.Waits (x : Sys) (key : Key) : Prop :=
  (∃ u, u ∈ x.k.waitersOf key) ∨ ∃ t want, x.loaded = some (t, want) ∧ x.pc t = .enter want

/-- A wake is still to come: the word is running with the waiters bit, or the call that settled it is in its wake. -/
def Sys.Covered (x : Sys) (key : Key) : Prop :=
  (x.k.words key).waiters = true ∧ ((x.k.words key).value = running ∨ ∃ s how, x.settler = some s ∧ x.pc s = .waking how)

/-- The node of this once is on the list of its thread. -/
def Pc.lists : Pc → Bool
  | .run | .func | .settle .returned | .swap .returned _ | .waking .returned | .settled .returned => true
  | _ => false

/-- Where a thread is in the kernel with the word it loaded. -/
def Pc.enters : Pc → Bool
  | .enter _ | .waking _ => true
  | _ => false

structure Inv (key : Key) (x : Sys) : Prop where
  orderly : Orderly x.k [] none
  plain : ∀ m, ¬ x.k.PiOn key m
  ceiling : x.k.count ≤ 254
  inside : ∀ t ∈ x.k.waitersOf key, x.pc t = .inside
  busy : ∀ t v, x.loaded = some (t, v) → x.k.Runnable t ∧ (x.pc t).enters = true
  turns : Turns (x.k.words key) x.pc
  covered : x.Waits key → x.Covered key
  next : ∀ t, key ∉ x.next t
  own : ∀ t, key ∈ x.own t → (x.pc t).lists = true
  logged : Logged (x.k.words key) x.pc x.log

theorem Inv.isPlain (h : Inv key x) : ∀ m, x.k.recordFind key = some m → (x.k.wrec m).kind = .plain :=
  h.orderly.plain_of_find h.plain

theorem Ready.ne_inside (hr : Ready x t) (h : Inv key x) (hu : u ∈ x.k.waitersOf key) : u ≠ t := by
  rintro rfl
  exact h.orderly.runnable_unwaited hr.run hu

/-! ### Steps of a thread outside the kernel -/

/-- What a thread outside the kernel may leave behind: it moves on, and may swap the word, list its node and note an event. -/
structure Moved (key : Key) (t : Tid) (p : Pc) (w : Word) (x y : Sys) : Prop where
  k : y.k = x.k.setWord key w
  pc : y.pc = update x.pc t p
  loaded : y.loaded = x.loaded

theorem setWord_words (s : Kernel) (key : Key) (w : Word) : (s.setWord key w).words key = w := by simp [Kernel.setWord]

theorem Moved.word (hm : Moved key t p w x y) : y.k.words key = w := by rw [hm.k, setWord_words]

theorem Moved.waits (hm : Moved key t p w x y) (hr : Ready x t) : y.Waits key → x.Waits key := by
  rintro (⟨u, hu⟩ | ⟨u, want, hl, hp⟩)
  · rw [hm.k] at hu
    exact .inl ⟨u, hu⟩
  · rw [hm.loaded] at hl
    rw [hm.pc, update_of_ne (hr.outside u want hl)] at hp
    exact .inr ⟨u, want, hl, hp⟩

theorem Inv.moved (h : Inv key x) (hr : Ready x t) (hm : Moved key t p w x y) (hturns : Turns w (update x.pc t p))
    (hcov : x.Covered key → y.Covered key) (hnext : key ∉ y.next t) (hnext' : ∀ u, u ≠ t → y.next u = x.next u)
    (hown : key ∈ y.own t → p.lists = true) (hown' : ∀ u, u ≠ t → y.own u = x.own u)
    (hlog : Logged w (update x.pc t p) y.log) : Inv key y := by
  have hword := hm.word
  refine ⟨hm.k ▸ h.orderly.setWord, ?_, ?_, fun u hu => ?_, fun u v hl => ?_, ?_,
    fun hw => hcov (h.covered (hm.waits hr hw)), fun u => ?_, fun u hu => ?_, ?_⟩
  · rw [hm.k]; exact h.plain
  · rw [hm.k]; exact h.ceiling
  · rw [hm.k] at hu
    rw [hm.pc, update_of_ne (hr.ne_inside h hu)]
    exact h.inside u hu
  · rw [hm.loaded] at hl
    rw [hm.k, hm.pc, update_of_ne (hr.outside u v hl)]
    exact h.busy u v hl
  · rw [hword, hm.pc]; exact hturns
  · rcases eq_or_ne u t with rfl | hne
    · exact hnext
    · rw [hnext' u hne]; exact h.next u
  · rcases eq_or_ne u t with rfl | hne
    · rw [hm.pc, update_self]; exact hown hu
    · rw [hm.pc, update_of_ne hne]
      exact h.own u (by rwa [hown' u hne] at hu)
  · rw [hword, hm.pc]; exact hlog

theorem Moved.covered (hm : Moved key t p w x y) (ht : ∀ how, x.pc t ≠ .waking how) (hs : y.settler = x.settler)
    (hbit : (x.k.words key).waiters = true → w.waiters = true) (hw : w.value = (x.k.words key).value ∨ w.value = running) :
    x.Covered key → y.Covered key := by
  rintro ⟨hwait, hrun⟩
  rw [Sys.Covered, hm.word]
  refine ⟨hbit hwait, ?_⟩
  rcases hw with hw | hw
  · rcases hrun with hrun | ⟨s, how, hset, hpc⟩
    · exact .inl (hw.trans hrun)
    · refine .inr ⟨s, how, hs.trans hset, ?_⟩
      have hne : s ≠ t := by
        rintro rfl
        exact ht how hpc
      rw [hm.pc, update_of_ne hne]
      exact hpc
  · exact .inl hw

theorem Inv.goto (h : Inv key x) (hr : Ready x t) (ht : ∀ how, x.pc t ≠ .waking how) (hp : p.runs = (x.pc t).runs)
    (hf : p.finishing = (x.pc t).finishing) (hl : (x.pc t).lists = true → p.lists = true) (hok : Ok (x.k.words key) p) :
    Inv key (x.goto t p) := by
  have hm : Moved key t p (x.k.words key) x (x.goto t p) := ⟨(setWord_self rfl).symm, rfl, rfl⟩
  exact h.moved hr hm (h.turns.keep hp rfl hok) (hm.covered ht rfl id (.inl rfl)) (h.next t) (fun _ _ => rfl)
    (fun hmem => hl (h.own t hmem)) (fun _ _ => rfl) (h.logged.still (complete_update hf Iff.rfl) id)

theorem Inv.note (h : Inv key x) {e : Event} (he : e.isCompleted = false)
    (hr : ∀ t, e = .returned t → (x.k.words key).value = done) : Inv key (x.note e) :=
  { h with logged := h.logged.note he hr }

theorem Inv.call (h : Inv key x) (hr : Ready x t) (hp : x.pc t = .out) : Inv key (x.call key t) := by
  unfold Sys.call
  split
  next hd => exact h.note rfl fun _ _ => hd
  next hd =>
    split
    next hmem =>
      have := h.own t hmem
      rw [hp] at this
      cases this
    · refine h.goto hr (by simp [hp]) (by rw [hp]; rfl) (by rw [hp]; rfl) (by rw [hp]; exact id) ⟨h.turns.word, id⟩

theorem Inv.claim (h : Inv key x) (hr : Ready x t) (hp : x.pc t = .loop v) (hv : v.value = untouched) :
    Inv key (x.claim key t v) := by
  have hok := h.turns.ok t
  rw [hp] at hok
  unfold Sys.claim
  split
  next hw =>
    have hm : Moved key t .run ⟨running, v.waiters⟩ x
        { ((x.goto t .run).setWord key ⟨running, v.waiters⟩).setOwn t (key :: x.own t) with
          next := update x.next t (x.own t) } := ⟨rfl, rfl, rfl⟩
    have hval : (x.k.words key).value = untouched := by rw [hw]; exact hv
    have hne : (x.k.words key).value ≠ running := by rw [hval]; decide
    have hnd : (x.k.words key).value ≠ done := by rw [hval]; decide
    have hrun : ∀ u, (x.pc u).finishing = false := fun u =>
      Bool.eq_false_iff.2 fun hf => hne (h.turns.value_of_runs (Pc.runs_of_finishing hf))
    refine h.moved hr hm (h.turns.take hne hnd rfl rfl trivial) (hm.covered (by simp [hp]) rfl (by rw [hw]; exact id) (.inr rfl))
      ?_ (fun u hu => update_of_ne hu ..) (fun _ => rfl) (fun u hu => update_of_ne hu ..) ?_
    · have : key ∉ x.own t := fun hmem => by
        have := h.own t hmem
        rw [hp] at this
        cases this
      dsimp only
      rw [update_self]
      exact this
    · refine h.logged.still (complete_update (by rw [hp]; rfl) ?_) fun hd => absurd hd hnd
      exact iff_of_false (fun hd : running = done => by cases hd) hnd
  · exact h.goto hr (by simp [hp]) (by rw [hp]; rfl) (by rw [hp]; rfl) (by rw [hp]; exact id) ⟨h.turns.word, id⟩

theorem Inv.mark (h : Inv key x) (hr : Ready x t) (hp : x.pc t = .loop v) (hv : v.value = running) :
    Inv key (x.mark key t v) := by
  unfold Sys.mark
  split
  next hbit =>
    refine h.goto hr (by simp [hp]) (by rw [hp]; rfl) (by rw [hp]; rfl) (by rw [hp]; exact id) ?_
    obtain ⟨value, waiters⟩ := v
    obtain rfl : value = running := hv
    obtain rfl : waiters = true := hbit
    rfl
  · split
    next hw =>
      have hm : Moved key t (.enter ⟨v.value, true⟩) ⟨v.value, true⟩ x
          ((x.goto t (.enter ⟨v.value, true⟩)).setWord key ⟨v.value, true⟩) := ⟨rfl, rfl, rfl⟩
      have hval : v.value = (x.k.words key).value := by rw [hw]
      refine h.moved hr hm (h.turns.keep (by rw [hp]; rfl) hval (by rw [hv]; rfl))
        (hm.covered (by simp [hp]) rfl (fun _ => rfl) (.inl hval)) (h.next t) (fun _ _ => rfl) (fun hmem => ?_)
        (fun _ _ => rfl) ?_
      · have := h.own t hmem
        rw [hp] at this
        cases this
      · exact h.logged.still (complete_update (by rw [hp]; rfl) (by rw [hval])) fun hd => hval.trans hd
    · exact h.goto hr (by simp [hp]) (by rw [hp]; rfl) (by rw [hp]; rfl) (by rw [hp]; exact id) ⟨h.turns.word, id⟩

theorem Inv.turn (h : Inv key x) (hr : Ready x t) (hp : x.pc t = .loop v) : Inv key (x.turn key t v) := by
  have hok := h.turns.ok t
  rw [hp] at hok
  unfold Sys.turn
  split
  next hd =>
    exact (h.goto (p := .out) hr (by simp [hp]) (by rw [hp]; rfl) (by rw [hp]; rfl) (by rw [hp]; exact id) trivial).note rfl
      fun _ _ => hok.2 hd
  next hd =>
    split
    next hu => exact h.claim hr hp hu
    next hu =>
      refine h.mark hr hp ?_
      have hle := hok.1
      unfold done untouched running at *
      omega

theorem Inv.look (h : Inv key x) (hr : Ready x t) (hp : x.pc t = .run) : Inv key (x.look key t) := by
  have hval := h.turns.value_of_runs (t := t) (by rw [hp]; rfl)
  unfold Sys.look
  rw [if_pos (by rw [hval]; decide)]
  exact (h.goto (p := .func) hr (by simp [hp]) (by rw [hp]; rfl) (by rw [hp]; rfl) (fun _ => rfl) trivial).note rfl
    fun _ he => by cases he

theorem Inv.incomplete (h : Inv key x) (hr : (x.pc t).runs = true) (hf : (x.pc t).finishing = false) :
    ¬ Complete (x.k.words key) x.pc := by
  have hval := h.turns.value_of_runs hr
  rintro (hd | ⟨u, hu⟩)
  · rw [hval] at hd
    cases hd
  · rw [h.turns.one u t (Pc.runs_of_finishing hu) hr, hf] at hu
    cases hu

theorem Inv.ret (h : Inv key x) (hr : Ready x t) (hp : x.pc t = .func) :
    Inv key ((x.goto t (.settle .returned)).note (.completed t)) := by
  have hruns : (x.pc t).runs = true := by rw [hp]; rfl
  have hval := h.turns.value_of_runs hruns
  have hm : Moved key t (.settle .returned) (x.k.words key) x ((x.goto t (.settle .returned)).note (.completed t)) :=
    ⟨(setWord_self rfl).symm, rfl, rfl⟩
  refine h.moved hr hm (h.turns.keep (by rw [hp]; rfl) rfl trivial) (hm.covered (by simp [hp]) rfl id (.inl rfl)) (h.next t)
    (fun _ _ => rfl) (fun _ => rfl) (fun _ _ => rfl) ?_
  refine h.logged.complete (h.incomplete hruns (by rw [hp]; rfl)) (.inr ⟨t, ?_⟩) (by rw [hval]; decide)
  rw [update_self]
  rfl

theorem Inv.throw (h : Inv key x) (hr : Ready x t) (hp : x.pc t = .func) :
    Inv key (((x.goto t (.settle .thrown)).setOwn t (x.next t)).note (.threw t)) := by
  have hm : Moved key t (.settle .thrown) (x.k.words key) x ((x.goto t (.settle .thrown)).setOwn t (x.next t)) :=
    ⟨(setWord_self rfl).symm, rfl, rfl⟩
  refine Inv.note (h.moved hr hm (h.turns.keep (by rw [hp]; rfl) rfl trivial) (hm.covered (by simp [hp]) rfl id (.inl rfl))
    (h.next t) (fun _ _ => rfl) (fun hmem => ?_) (fun u hu => update_of_ne hu ..) ?_) rfl fun _ he => by cases he
  · dsimp only [Sys.setOwn] at hmem
    rw [update_self] at hmem
    exact absurd hmem (h.next t)
  · exact h.logged.still (complete_update (by rw [hp]; rfl) Iff.rfl) id

theorem How.value_le (how : How) : how.value ≤ done := by cases how <;> decide

theorem How.value_ne (how : How) : how.value ≠ running := by cases how <;> decide

theorem Inv.swap {how : How} (h : Inv key x) (hr : Ready x t) (hp : x.pc t = .swap how v) : Inv key (x.swap key t how v) := by
  have hok := h.turns.ok t
  rw [hp] at hok
  have hruns : (x.pc t).runs = true := by
    rw [hp]
    cases how with
    | inline => exact hok.elim
    | _ => rfl
  have hval := h.turns.value_of_runs hruns
  unfold Sys.swap
  split
  next hw =>
    obtain ⟨q, hq⟩ : ∃ q, q = if v.waiters then Pc.waking how else Pc.settled how := ⟨_, rfl⟩
    rw [← hq]
    have hcases : q = .waking how ∨ q = .settled how := by
      rw [hq]
      split
      · exact .inl rfl
      · exact .inr rfl
    have hm : Moved key t q ⟨how.value, v.waiters⟩ x
        { (x.goto t q).setWord key ⟨how.value, v.waiters⟩ with settler := some t } := ⟨rfl, rfl, rfl⟩
    refine h.moved hr hm (h.turns.give hruns ?_ ?_ ?_ ?_) (fun hcov => ?_) (h.next t) (fun _ _ => rfl)
      (fun hmem => ?_) (fun _ _ => rfl) ?_
    · rcases hcases with rfl | rfl <;> rfl
    · exact how.value_le
    · exact how.value_ne
    · cases how with
      | inline => exact hok.elim
      | returned => rcases hcases with rfl | rfl <;> rfl
      | thrown => rcases hcases with rfl | rfl <;> trivial
    · -- the waiters bit was in the word that was swapped
      have hbit : v.waiters = true := hw ▸ hcov.1
      rw [if_pos hbit] at hq
      refine ⟨by rw [hm.word]; exact hbit, .inr ⟨t, how, rfl, ?_⟩⟩
      rw [hm.pc, update_self]
      exact hq
    · have hlists := h.own t hmem
      rw [hp] at hlists
      cases how with
      | returned => rcases hcases with rfl | rfl <;> rfl
      | _ => cases hlists
    · cases how with
      | inline => exact hok.elim
      | returned =>
        have hbefore : Complete (x.k.words key) x.pc := .inr ⟨t, by rw [hp]; rfl⟩
        exact h.logged.still (iff_of_true (.inl rfl) hbefore) fun _ => rfl
      | thrown =>
        have hbefore := h.incomplete hruns (by rw [hp]; rfl)
        refine h.logged.still (complete_update ?_ ?_) fun hd => absurd (.inl hd) hbefore
        · rw [hp]
          rcases hcases with rfl | rfl <;> rfl
        · exact iff_of_false (fun hd : untouched = done => by cases hd) fun hd => hbefore (.inl hd)
  · refine h.goto hr (by simp [hp]) ?_ ?_ ?_ ?_
    · rw [hp]; cases how <;> rfl
    · rw [hp]; cases how <;> rfl
    · rw [hp]; cases how <;> exact id
    · cases how with
      | inline => exact hok.elim
      | _ => trivial

theorem Inv.read {how : How} (h : Inv key x) (hr : Ready x t) (hp : x.pc t = .settle how) :
    Inv key (x.goto t (.swap how (x.k.words key))) := by
  have hok := h.turns.ok t
  rw [hp] at hok
  refine h.goto hr (by simp [hp]) ?_ ?_ ?_ ?_
  · rw [hp]; cases how <;> rfl
  · rw [hp]; cases how <;> rfl
  · rw [hp]; cases how <;> exact id
  · cases how with
    | inline => exact hok.elim
    | _ => trivial

theorem Inv.finish {how : How} (h : Inv key x) (hr : Ready x t) (hp : x.pc t = .settled how) : Inv key (x.finish t how) := by
  have hok := h.turns.ok t
  rw [hp] at hok
  cases how with
  | inline => exact hok.elim
  | thrown =>
    exact (h.goto (p := .out) hr (by simp [hp]) (by rw [hp]; rfl) (by rw [hp]; rfl) (by rw [hp]; exact id) trivial).note rfl
      fun _ he => by cases he
  | returned =>
    have hm : Moved key t .out (x.k.words key) x ((x.goto t .out).setOwn t (x.next t)) := ⟨(setWord_self rfl).symm, rfl, rfl⟩
    refine Inv.note (h.moved hr hm (h.turns.keep (by rw [hp]; rfl) rfl trivial) (hm.covered (by simp [hp]) rfl id (.inl rfl))
      (h.next t) (fun _ _ => rfl) (fun hmem => ?_) (fun u hu => update_of_ne hu ..) ?_) rfl fun _ _ => hok
    · dsimp only [Sys.setOwn] at hmem
      rw [update_self] at hmem
      exact absurd hmem (h.next t)
    · exact h.logged.still (complete_update (by rw [hp]; rfl) Iff.rfl) id

theorem Inv.setOwn (h : Inv key x) {l : List Key} (hl : key ∈ l → key ∈ x.own t) : Inv key (x.setOwn t l) := by
  refine { h with own := fun u hu => ?_ }
  dsimp only [Sys.setOwn] at hu
  rcases eq_or_ne u t with rfl | hne
  · rw [update_self] at hu
    exact h.own u (hl hu)
  · rw [update_of_ne hne] at hu
    exact h.own u hu

/-! ### Steps of the kernel -/

theorem Inv.elsewhere {s : Kernel} (h : Inv key x) (hl : x.loaded = none) (he : Elsewhere key x.k s) :
    Inv key { x with k := s } := by
  refine ⟨he.orderly, he.plain, he.count ▸ h.ceiling, fun u hu => h.inside u ((he.waiters u).1 hu), fun u v hu => ?_,
    ?_, ?_, h.next, h.own, ?_⟩
  · dsimp only at hu
    rw [hl] at hu
    cases hu
  · dsimp only
    rw [he.word]
    exact h.turns
  · rintro (⟨u, hu⟩ | ⟨u, want, hu, -⟩)
    · obtain ⟨hbit, hrun⟩ := h.covered (.inl ⟨u, (he.waiters u).1 hu⟩)
      refine ⟨?_, ?_⟩
      · dsimp only
        rw [he.word]
        exact hbit
      · dsimp only
        rw [he.word]
        exact hrun
    · dsimp only at hu
      rw [hl] at hu
      cases hu
  · dsimp only
    rw [he.word]
    exact h.logged

theorem Inv.load (h : Inv key x) (hr : Running x.k t) (hp : (x.pc t).enters = true) :
    Inv key { x with loaded := some (t, x.k.words key) } := by
  refine { h with busy := fun u v hu => ?_, covered := ?_ }
  · cases hu
    exact ⟨hr.runnable, hp⟩
  · rintro (⟨u, hu⟩ | ⟨u, want, hu, hpc⟩)
    · exact h.covered (.inl ⟨u, hu⟩)
    · cases hu
      have hok := h.turns.ok t
      rw [show x.pc t = .enter (x.k.words key) from hpc] at hok
      have hword : x.k.words key = ⟨running, true⟩ := hok
      exact ⟨congrArg Word.waiters hword, .inl (congrArg Word.value hword)⟩

theorem Inv.unload (h : Inv key x) : Inv key { x with loaded := none } := by
  refine { h with busy := fun u v hu => (by cases hu), covered := ?_ }
  rintro (⟨u, hu⟩ | ⟨u, want, hu, -⟩)
  · exact h.covered (.inl ⟨u, hu⟩)
  · cases hu

theorem Inv.ready_unloaded (h : Inv key x) (hl : x.loaded = some (t, v)) : Ready { x with loaded := none } t :=
  ⟨(h.busy t v hl).1, fun _ _ hc => by cases hc⟩

theorem Inv.woken_all {s : Kernel} {W : List Tid} {n : Nat} (h : Inv key x)
    (hlen : W.length = min (x.k.waitersOf key).length (2 ^ 32 - 1)) (hsub : ∀ u ∈ W, u ∈ x.k.waitersOf key)
    (hwoke : Woke (x.k.setWord key v) s W n) : W.length = (x.k.waitersOf key).length ∧
      ∀ u, u ∉ s.waitersOf key := by
  have hle := h.orderly.waiters_le (k := key)
  have hc := h.ceiling
  refine ⟨by omega, fun u hu => ?_⟩
  have hlt : W.length < (x.k.waitersOf key).length := hwoke.more hsub hu
  omega

theorem Inv.commitWake {how : How} (h : Inv key x) (hp : x.pc t = .waking how) :
    Inv key (x.commitWake key t how v) := by
  have ho : Orderly (x.k.wakeAttempt (.ok key) v (2 ^ 32 - 1) 0).1 [] none := h.orderly.wakeAttempt
  have hpi : ∀ m, ¬ (x.k.wakeAttempt (.ok key) v (2 ^ 32 - 1) 0).1.PiOn key m := fun m hm =>
      h.plain m (h.orderly.piOn_wakeAttempt hm)
  have hcases := h.orderly.wakeAttempt_cases v (2 ^ 32 - 1) 0 h.isPlain
  unfold Sys.commitWake
  rcases hres : x.k.wakeAttempt (.ok key) v (2 ^ 32 - 1) 0 with ⟨s, r⟩
  rw [hres] at hcases ho hpi
  dsimp only at hcases ho hpi
  rcases hcases with ⟨rfl, ⟨rfl, hu⟩ | rfl⟩ | ⟨hw, W, hlen, hsub, -, rfl, hwoke⟩
  · exact absurd hu (Nat.lt_irrefl 0)
  · exact h.unload
  obtain ⟨hall, hnone⟩ := h.woken_all hlen hsub hwoke
  have hword : s.words key = ⟨(x.k.words key).value, false⟩ := by
    rw [hwoke.words, setWord_words, hall, decide_eq_false (Nat.lt_irrefl _), hw, Nat.zero_sub, Nat.add_zero]
  have hok := h.turns.ok t
  rw [hp] at hok
  refine ⟨ho, hpi, hwoke.count ▸ h.ceiling, fun u hu => absurd hu (hnone u), fun u v hu => absurd hu (by simp), ?_,
    ?_, h.next, fun u hu => ?_, ?_⟩
  · dsimp only
    rw [hword]
    refine h.turns.keep (by rw [hp]; rfl) rfl ?_
    cases how with
    | inline => exact hok
    | returned => exact hok
    | thrown => trivial
  · rintro (⟨u, hu⟩ | ⟨u, want, hu, -⟩)
    · exact absurd hu (hnone u)
    · exact absurd hu (by simp)
  · have hlists := h.own u hu
    dsimp only [Sys.goto]
    rw [update_eq]
    split
    next heq =>
      rw [heq, hp] at hlists
      cases how <;> exact hlists
    · exact hlists
  · dsimp only
    rw [hword]
    exact h.logged.still (complete_update (by rw [hp]; rfl) Iff.rfl) id

theorem setWord_setWord (s : Kernel) (key : Key) (v w : Word) : (s.setWord key v).setWord key w = s.setWord key w := by
  simp [Kernel.setWord]

theorem Inv.commitWait {want : Word} (h : Inv key x) (hl : x.loaded = some (t, v)) (hp : x.pc t = .enter want) :
    Inv key (x.commitWait key t want v) := by
  have hrun := (h.busy t v hl).1
  have h0 : Orderly (x.k.setWord key v) [] none := h.orderly.setWord
  have ho : Orderly ((x.k.setWord key v).wordWait t (.ok key) want false none).1 [] none := h0.wordWait hrun
  have hpi : ∀ m, ¬ ((x.k.setWord key v).wordWait t (.ok key) want false none).1.PiOn key m := fun m hm =>
    h.plain m (h0.piOn_wordWait hrun hm)
  have hcases := h0.wordWait_cases want false none hrun h.isPlain
  unfold Sys.commitWait
  rcases hres : (x.k.setWord key v).wordWait t (.ok key) want false none with ⟨s, r⟩
  rw [hres] at hcases ho hpi
  dsimp only at hcases ho hpi
  -- a refusal leaves the kernel as it was
  have hrefused : s = x.k.setWord key v →
      Inv key { x.goto t .again with k := s.setWord key (x.k.words key), loaded := none } := by
    rintro rfl
    rw [setWord_setWord, setWord_self rfl]
    exact h.unload.goto (p := .again) (h.ready_unloaded hl) (by simp [hp]) (by rw [hp]; rfl) (by rw [hp]; rfl)
      (by rw [hp]; exact id)
      trivial
  rcases hcases with ⟨hs, ⟨rfl, -⟩ | rfl⟩ | ⟨hw, rfl, hwait, -, -, hwords, hcount⟩
  · exact hrefused hs
  · exact hrefused hs
  obtain rfl : v = want := by rw [← hw, setWord_words]
  obtain ⟨hbit, hcov⟩ := h.covered (.inr ⟨t, v, hl, hp⟩)
  have hword : (s.setWord key (x.k.words key)).words key = x.k.words key := setWord_words ..
  refine ⟨ho.setWord, hpi, hcount ▸ h.ceiling, fun u hu => ?_, fun u v hu => absurd hu (by simp), ?_, fun _ => ⟨?_, ?_⟩, h.next,
    fun u hu => ?_, ?_⟩
  · dsimp only [Sys.goto]
    rw [update_eq]
    split
    · rfl
    next hne => exact h.inside u (((hwait u key).1 hu).resolve_right fun heq => hne heq.1)
  · dsimp only [Sys.goto]
    rw [hword]
    exact h.turns.keep (by rw [hp]; rfl) rfl trivial
  · dsimp only
    rw [hword]
    exact hbit
  · dsimp only [Sys.goto]
    rw [hword]
    refine hcov.imp_right fun ⟨c, how, hset, hpc⟩ => ⟨c, how, hset, ?_⟩
    have hne : c ≠ t := by
      rintro rfl
      rw [hp] at hpc
      cases hpc
    rw [update_of_ne hne]
    exact hpc
  · have hlists := h.own u hu
    dsimp only [Sys.goto]
    rw [update_eq]
    split
    next heq =>
      rw [heq, hp] at hlists
      cases hlists
    · exact hlists
  · dsimp only [Sys.goto]
    rw [hword]
    exact h.logged.still (complete_update (by rw [hp]; rfl) Iff.rfl) id

/-! ### Runs -/

theorem Step.inv (hs : Step key x y) (h : Inv key x) : Inv key y := by
  cases hs with
  | call t hr hp => exact h.call hr hp
  | turn t v hr hp => exact h.turn hr hp
  | look t hr hp => exact h.look hr hp
  | ret t hr hp => exact h.ret hr hp
  | throw t hr hp => exact h.throw hr hp
  | inlineRet t hr hp =>
    have hok := h.turns.ok t
    rw [hp] at hok
    exact hok.elim
  | inlineThrow t hr hp =>
    have hok := h.turns.ok t
    rw [hp] at hok
    exact hok.elim
  | read t how hr hp => exact h.read hr hp
  | swap t how v hr hp => exact h.swap hr hp
  | finish t how hr hp => exact h.finish hr hp
  | loadWake t how hl hr hp => exact h.load hr (by rw [hp]; rfl)
  | wake t how v hl hp => exact h.commitWake hp
  | loadWait t want hl hr hp => exact h.load hr (by rw [hp]; rfl)
  | wait t want v hl hp => exact h.commitWait hl hp
  | resume t hr hp => exact h.goto hr (by simp [hp]) (by rw [hp]; rfl) (by rw [hp]; rfl) (by rw [hp]; exact id) trivial
  | reread t hr hp => exact h.goto hr (by simp [hp]) (by rw [hp]; rfl) (by rw [hp]; rfl) (by rw [hp]; exact id) ⟨h.turns.word, id⟩
  | push t o hr hp ho => exact h.setOwn fun hmem => (List.mem_cons.1 hmem).resolve_left fun heq => ho heq.symm
  | pop t o l hr hp ho hl => exact h.setOwn fun hmem => by rw [hl]; exact List.mem_cons_of_mem _ hmem
  | elsewhere k hl he => exact h.elsewhere hl he

theorem inv_boot {s : Kernel} (h : Boot s) (hf : s.faulted = false) : Inv key { k := s } := by
  have hnone : s.waitersOf key = [] := by simp [waitersOf, recordFind, h.active]
  have hword : s.words key = {} := h.words key
  have hidle : ¬ Complete (s.words key) fun _ => Pc.out := by
    rintro (hd | ⟨u, hu⟩)
    · rw [hword] at hd
      cases hd
    · cases hu
  refine ⟨⟨h.inv.placed, h.inv.tidy.recorded, hf⟩, fun m hm => ?_, h.ceiling, fun u hu => ?_,
    fun u v hu => absurd hu (by simp), ?_, ?_, fun u hu => absurd hu (by simp), fun u hu => absurd hu (by simp), ?_⟩
  · have hk := hm.1
    simp [(h.wrec m).1] at hk
  · rw [hnone] at hu
    cases hu
  · refine ⟨by rw [hword]; decide, fun _ => trivial, fun u u' hu => absurd hu (by simp [Pc.runs]), ?_⟩
    rw [hword]
    refine iff_of_false (by decide) fun hex => ?_
    obtain ⟨u, hu⟩ := hex
    cases hu
  · rintro (⟨u, hu⟩ | ⟨u, want, hu, -⟩)
    · rw [hnone] at hu
      cases hu
    · cases hu
  · exact ⟨fun hc => absurd hc hidle, fun _ => rfl, fun u hu => absurd hu (by simp), fun pre post u heq => absurd heq (by simp)⟩

theorem Reachable.inv (h : Reachable key x) : Inv key x := by
  induction h with
  | boot s hb hf => exact inv_boot hb hf
  | step x y _ hs ih => exact hs.inv ih

theorem Reachable.run (h : Reachable key x) (hs : Relation.ReflTransGen (Step key) x y) : Reachable key y := by
  induction hs with
  | refl => exact h
  | tail _ hs ih => exact .step _ _ ih hs

theorem Step.done (hs : Step key x y) (h : Inv key x) (hd : (x.k.words key).value = done) : (y.k.words key).value = done := by
  have hnone : ∀ t, (x.pc t).runs ≠ true := fun t ht => by
    rw [h.turns.value_of_runs ht] at hd
    cases hd
  cases hs with
  | call t hr hp =>
    dsimp only [Sys.call]
    rw [if_pos hd]
    exact hd
  | turn t v hr hp =>
    dsimp only [Sys.turn, Sys.claim, Sys.mark]
    split
    · exact hd
    next hv =>
      -- a swap would find the word it read
      have hne : x.k.words key ≠ v := fun heq => hv (heq ▸ hd)
      rw [if_neg hne, if_neg hne]
      split
      · exact hd
      · split <;> exact hd
  | look t hr hp => exact absurd (by rw [hp]; rfl) (hnone t)
  | swap t how v hr hp =>
    have hok := h.turns.ok t
    rw [hp] at hok
    cases how with
    | inline => exact hok.elim
    | returned => exact absurd (by rw [hp]; rfl) (hnone t)
    | thrown => exact absurd (by rw [hp]; rfl) (hnone t)
  | finish t how hr hp => cases how <;> exact hd
  | wake t how v hl hp =>
    have hval : ((x.commitWake key t how v).k.words key).value = (x.k.words key).value := by
      have hcases := h.orderly.wakeAttempt_cases v (2 ^ 32 - 1) 0 h.isPlain
      unfold Sys.commitWake
      rcases hres : x.k.wakeAttempt (.ok key) v (2 ^ 32 - 1) 0 with ⟨s, r⟩
      rw [hres] at hcases
      dsimp only at hcases
      rcases hcases with ⟨rfl, ⟨rfl, -⟩ | rfl⟩ | ⟨hw, W, -, -, -, rfl, hwoke⟩
      · rfl
      · rfl
      · dsimp only
        rw [hwoke.words, setWord_words, hw, Nat.zero_sub, Nat.add_zero]
    exact hval.trans hd
  | wait t want v hl hp =>
    dsimp only [Sys.commitWait]
    split <;> exact (congrArg Word.value (setWord_words ..)).trans hd
  | elsewhere k hl he => exact (congrArg Word.value he.word).trans hd
  | _ => exact hd

theorem Reachable.done (h : Reachable key x) (hd : (x.k.words key).value = Once.done)
    (hs : Relation.ReflTransGen (Step key) x y) : (y.k.words key).value = Once.done := by
  induction hs with
  | refl => exact hd
  | tail hxy hs ih => exact hs.done (h.run hxy).inv ih

/-- In every state of every run: one function runs at a time; once a call has returned one function has completed, before it, and
none after it; a done word stays done; a running word is with a call that has not settled it, so none that threw leaves it so; and
behind a settled word nobody is parked once the call that settled it is out of its wake. -/
theorem call_once (h : Reachable key x) :
    (∀ t u, x.pc t = .func → x.pc u = .func → t = u) ∧
    ((∃ t, .returned t ∈ x.log) → x.log.countP Event.isCompleted = 1) ∧
    x.log.countP Event.isCompleted ≤ 1 ∧
    (∀ pre post t, x.log = post ++ .returned t :: pre → ∃ u, .completed u ∈ pre) ∧
    ((x.k.words key).value = done → ∀ y, Relation.ReflTransGen (Step key) x y → (y.k.words key).value = done) ∧
    ((x.k.words key).value = running → ∃ t, (x.pc t).runs = true) ∧
    ((x.k.words key).value ≠ running → (∀ t, x.settler = some t → ∀ how, x.pc t ≠ .waking how) → x.k.waitersOf key = []) := by
  have hi := h.inv
  refine ⟨fun t u ht hu => hi.turns.one t u (by rw [ht]; rfl) (by rw [hu]; rfl),
    fun ⟨t, ht⟩ => hi.logged.one (.inl (hi.logged.returned t ht)), ?_, hi.logged.order, fun hd y => h.done hd,
    hi.turns.held.1, fun hne hout => ?_⟩
  · by_cases hc : Complete (x.k.words key) x.pc
    · exact (hi.logged.one hc).le
    · exact (hi.logged.none hc).le.trans (Nat.zero_le 1)
  · refine List.eq_nil_iff_forall_not_mem.2 fun u hu => ?_
    obtain ⟨-, hrun | ⟨s, how, hset, hpc⟩⟩ := hi.covered (.inl ⟨u, hu⟩)
    · exact hne hrun
    · exact hout s hset how hpc

/-- The high thread of the pair has called the once and its function has returned. -/
def calledOnce : Sys :=
  let x : Sys := { k := pair }
  let x := (x.call 7 1).turn 7 1 {}
  let x := ((x.look 7 1).goto 1 (.settle .returned)).note (.completed 1)
  ((x.goto 1 (.swap .returned (x.k.words 7))).swap 7 1 .returned (x.k.words 7)).finish 1 .returned

theorem call_once_pair : calledOnce.log = [.returned 1, .completed 1, .began 1] ∧ (calledOnce.k.words 7).value = done ∧
    calledOnce.k.waitersOf 7 = [] := by
  have hr : ∀ x : Sys, x.loaded = none → (x.k.thr 1).state = .ready → Ready x 1 := fun x hl hs =>
    ⟨.inl hs, fun c v hc => by rw [hl] at hc; cases hc⟩
  have h0 : Reachable 7 { k := pair } := .boot pair pair_boot rfl
  have h1 := Reachable.step _ _ h0 (.call _ 1 (hr _ rfl rfl) rfl)
  have h2 := Reachable.step _ _ h1 (.turn _ 1 {} (hr _ rfl rfl) rfl)
  have h3 := Reachable.step _ _ h2 (.look _ 1 (hr _ rfl rfl) rfl)
  have h4 := Reachable.step _ _ h3 (.ret _ 1 (hr _ rfl rfl) rfl)
  have h5 := Reachable.step _ _ h4 (.read _ 1 .returned (hr _ rfl rfl) rfl)
  have h6 := Reachable.step _ _ h5 (.swap _ 1 .returned _ (hr _ rfl rfl) rfl)
  have h7 := Reachable.step _ _ h6 (.finish _ 1 .returned (hr _ rfl rfl) rfl)
  have hx : Reachable 7 calledOnce := h7
  refine ⟨by decide, by decide, (call_once hx).2.2.2.2.2.2 (by decide) fun t ht => ?_⟩
  have : t = 1 := by
    have hs : calledOnce.settler = some 1 := by decide
    rw [hs] at ht
    exact (Option.some.inj ht).symm
  subst this
  intro how
  cases how <;> decide

end Once
end KickOS
