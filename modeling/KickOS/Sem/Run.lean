import KickOS.Sem.Model

/-! Every run of the semaphore conserves its units, and no unit stands in the count beside a parked waiter. -/

namespace KickOS
namespace Sem
open Kernel Mutex

variable {x y : Sys} {key : Key} {n : Nat} {t u : Tid} {v w : Word}

/-! ### Units in flight -/

theorem handed_congr (hn : y.k.count = x.k.count) (h : ∀ u, Handed y key u ↔ Handed x key u) :
    handed y key = handed x key := by
  unfold handed
  rw [hn, Finset.filter_congr fun u _ => h u]

theorem handed_succ (hn : y.k.count = x.k.count) (ht : t < x.k.count) (h0 : ¬ Handed x key t)
    (h : ∀ u, Handed y key u ↔ Handed x key u ∨ u = t) : handed y key = handed x key + 1 := by
  have hset : (Finset.range y.k.count).filter (Handed y key) =
      insert t ((Finset.range x.k.count).filter (Handed x key)) := by
    ext u
    simp only [Finset.mem_filter, Finset.mem_range, Finset.mem_insert, hn, h]
    constructor
    · rintro ⟨hu, hh | rfl⟩
      · exact .inr ⟨hu, hh⟩
      · exact .inl rfl
    · rintro (rfl | ⟨hu, hh⟩)
      · exact ⟨ht, .inr rfl⟩
      · exact ⟨hu, .inl hh⟩
  unfold handed
  rw [hset, Finset.card_insert_of_notMem fun hm => h0 (Finset.mem_filter.mp hm).2]

/-! ### The invariant -/

structure Inv (key : Key) (n : Nat) (x : Sys) : Prop where
  orderly : Orderly x.k [] none
  plain : ∀ m, ¬ x.k.PiOn key m
  /-- Nothing of this system waits elsewhere. -/
  edges : ∀ t, (x.k.thr t).edge ≠ .none → t ∈ x.k.waitersOf key
  inside : ∀ t ∈ x.k.waitersOf key, x.pc t = .inside
  busy : ∀ t v, x.loaded = some (t, v) → x.pc t = .waking
  /-- The waiters bit is never set beside a unit. -/
  bit : (x.k.words key).waiters = true → (x.k.words key).value = 0
  parked : ∀ t ∈ x.k.waitersOf key, (x.k.words key).waiters = true
  bound : (x.k.words key).value ≤ countMax
  conserved : n + x.posts = (x.k.words key).value + x.waits + handed x key

theorem Inv.isPlain (h : Inv key n x) : ∀ m, x.k.recordFind key = some m → (x.k.wrec m).kind = .plain :=
  h.orderly.plain_of_find h.plain

@[simp] theorem goto_pc (x : Sys) (t u : Tid) (p : Pc) : (x.goto t p).pc u = if u = t then p else x.pc u := by
  simp [Sys.goto, Function.update_apply]

@[simp] theorem goto_k (x : Sys) (t : Tid) (p : Pc) : (x.goto t p).k = x.k := rfl

@[simp] theorem goto_loaded (x : Sys) (t : Tid) (p : Pc) : (x.goto t p).loaded = x.loaded := rfl

@[simp] theorem goto_posts (x : Sys) (t : Tid) (p : Pc) : (x.goto t p).posts = x.posts := rfl

@[simp] theorem goto_waits (x : Sys) (t : Tid) (p : Pc) : (x.goto t p).waits = x.waits := rfl

/-! ### The steps of the user side -/

theorem Inv.user {p : Pc} {posts waits : Nat} (h : Inv key n x) (hr : Ready x t) (hp : x.pc t ≠ .inside) (hq : p ≠ .inside)
    (hb : w.waiters = true → w.value = 0) (hk : (x.k.words key).waiters = true → w.waiters = true)
    (hm : w.value ≤ countMax) (hc : n + posts = w.value + waits + handed x key) :
    Inv key n { x.goto t p with k := x.k.setWord key w, posts := posts, waits := waits } := by
  have hword : (x.k.setWord key w).words key = w := by simp [Kernel.setWord]
  refine ⟨h.orderly.setWord, h.plain, h.edges, fun u hu => ?_, fun u v hu => ?_, ?_, fun u hu => ?_, ?_, ?_⟩
  · have hpc := h.inside u hu
    have hut : u ≠ t := by
      rintro rfl
      exact hp hpc
    simpa [hut] using hpc
  · have hut := hr.outside u v hu
    simpa [hut] using h.busy u v hu
  · rw [hword]; exact hb
  · rw [hword]; exact hk (h.parked u hu)
  · rw [hword]; exact hm
  · have hsame : ∀ u, Handed { x.goto t p with k := x.k.setWord key w, posts := posts, waits := waits } key u ↔
        Handed x key u := fun u => by
      by_cases hu : u = t
      · subst hu
        simp [Handed, hp, hq]
      · simp only [Handed, goto_pc, hu, if_false]
        rfl
    refine hc.trans ?_
    rw [hword]
    exact congrArg (w.value + waits + ·) (handed_congr (y :=
      { x.goto t p with k := x.k.setWord key w, posts := posts, waits := waits }) (x := x) rfl hsame).symm

theorem Inv.goto {p : Pc} (h : Inv key n x) (hr : Ready x t) (hp : x.pc t ≠ .inside) (hq : p ≠ .inside) :
    Inv key n (x.goto t p) := by
  have hsame : Inv key n { x.goto t p with k := x.k.setWord key (x.k.words key), posts := x.posts, waits := x.waits } :=
    h.user hr hp hq h.bit id h.bound h.conserved
  rwa [setWord_self rfl] at hsame

theorem Inv.takeUnit (h : Inv key n x) (hr : Ready x t) (hp : x.pc t = .take v) (hv : v.value ≠ 0) :
    Inv key n (x.takeUnit key t v) := by
  have hin : x.pc t ≠ .inside := by rw [hp]; simp
  unfold Sys.takeUnit
  split_ifs with hw
  · have hc := h.conserved
    have hb := h.bound
    have hbit : v.waiters = false := by
      rw [← hw] at hv ⊢
      exact Bool.eq_false_iff.mpr fun hbit => hv (h.bit hbit)
    rw [hw] at hc hb
    refine h.user hr hin (by simp) (by simp [hbit]) (by simp [hw]) ?_ ?_
    · show v.value - 1 ≤ countMax
      omega
    · show n + x.posts = v.value - 1 + (x.waits + 1) + handed x key
      omega
  · exact h.goto hr hin (by simp)

theorem Inv.setBit (h : Inv key n x) (hr : Ready x t) (hp : x.pc t = .take v) (hv : v.value = 0) :
    Inv key n (x.setBit key t v) := by
  have hin : x.pc t ≠ .inside := by rw [hp]; simp
  unfold Sys.setBit
  split_ifs with hbit hw
  · exact h.goto hr hin (by simp)
  · refine h.user hr hin (by simp) (fun _ => hv) (fun _ => rfl) ?_ ?_
    · show v.value ≤ countMax
      rw [hv]; exact Nat.zero_le _
    · have hc := h.conserved
      rwa [hw] at hc
  · exact h.goto hr hin (by simp)

theorem Inv.postUnit (h : Inv key n x) (hr : Ready x t) (hp : x.pc t = .give v) (hv : v.waiters = false) :
    Inv key n (x.postUnit key t v) := by
  have hin : x.pc t ≠ .inside := by rw [hp]; simp
  unfold Sys.postUnit
  split_ifs with hmax hw
  · exact h.goto hr hin (by simp)
  · have hc := h.conserved
    have hb := h.bound
    rw [hw] at hc hb
    refine h.user hr hin (by simp) (by simp [hv]) (by simp [hw]) ?_ ?_
    · show v.value + 1 ≤ countMax
      omega
    · show n + (x.posts + 1) = v.value + 1 + x.waits + handed x key
      omega
  · exact h.goto hr hin (by simp)

/-! ### The steps of the kernel -/

theorem Inv.of_core {s : Kernel} (h : Inv key n x) (hc : s.core = x.k.core) (ho : Orderly s [] none) :
    Inv key n { x with k := s } := by
  have hw := waitersOf_core hc
  have hword : s.words key = x.k.words key := by rw [words_core hc]
  refine ⟨ho, fun m => ?_, fun t ht => ?_, fun t ht => ?_, h.busy, ?_, fun t ht => ?_, ?_, ?_⟩
  · rw [piOn_core hc]; exact h.plain m
  · rw [edge_core hc] at ht; rw [hw]; exact h.edges t ht
  · rw [hw] at ht; exact h.inside t ht
  · rw [hword]; exact h.bit
  · rw [hw] at ht; rw [hword]; exact h.parked t ht
  · rw [hword]; exact h.bound
  · have hsame : ∀ u, Handed { x with k := s } key u ↔ Handed x key u := fun u => by
      simp only [Handed, hw, waitResult_core hc]
    refine h.conserved.trans ?_
    rw [hword]
    congr 1
    exact (handed_congr (count_core hc) hsame).symm

theorem Inv.enterWait {passed : Bool} {d : Option Nat} (h : Inv key n x) (hl : x.loaded = none) (hr : Running x.k t)
    (hp : x.pc t = .enter) : Inv key n (x.enterWait key t passed d) := by
  have hin : x.pc t ≠ .inside := by rw [hp]; simp
  have hready : Ready x t := ⟨hr.runnable, by simp [hl]⟩
  have ho : Orderly (x.k.wordWait t (.ok key) ⟨0, true⟩ passed d).1 [] none := h.orderly.wordWait hr.runnable
  have hpi : ∀ m, ¬ (x.k.wordWait t (.ok key) ⟨0, true⟩ passed d).1.PiOn key m := fun m hm =>
    h.plain m (h.orderly.piOn_wordWait hr.runnable hm)
  have hcases := h.orderly.wordWait_cases ⟨0, true⟩ passed d hr.runnable h.isPlain
  unfold Sys.enterWait
  rcases hres : x.k.wordWait t (.ok key) ⟨0, true⟩ passed d with ⟨s, r⟩
  rw [hres] at hcases ho hpi
  dsimp only at hcases ho hpi
  -- A refusal leaves the kernel as it was and carries no unit.
  have hrefused : ∀ e : Errno, s = x.k → Inv key n { x.goto t (waited (.error e)) with
      k := s, waits := x.waits + unitsOf (.error e) } := by
    rintro e rfl
    refine h.goto hready hin ?_
    simp only [waited]
    split_ifs <;> simp
  rcases hcases with ⟨hs, ⟨rfl, -⟩ | rfl⟩ | ⟨hw, rfl, hwait, hres', hedge, hwords, hcount⟩
  · exact hrefused _ hs
  · exact hrefused _ hs
  have hword : s.words key = ⟨0, true⟩ := by rw [hwords, hw]
  refine ⟨ho, hpi, fun u hu => (hwait u key).mpr ?_, fun u hu => ?_, fun u v hu => ?_, fun _ => ?_, fun u _ => ?_, ?_, ?_⟩
  · by_cases hut : u = t
    · exact .inr ⟨hut, rfl⟩
    · exact .inl (h.edges u (by rwa [← hedge u hut]))
  · rcases (hwait u key).mp hu with hu | ⟨rfl, -⟩
    · simp [h.inside u hu]
    · simp
  · rw [goto_loaded, hl] at hu; cases hu
  · rw [hword]
  · rw [hword]
  · rw [hword]; exact Nat.zero_le _
  · have hsame : ∀ u, Handed { x.goto t .inside with k := s } key u ↔ Handed x key u := fun u => by
      simp only [Handed, hwait, hres', goto_pc]
      by_cases hu : u = t
      · subst hu
        simp [hin]
      · simp [hu]
    refine h.conserved.trans ?_
    rw [hwords]
    congr 1
    exact (handed_congr (by exact hcount) hsame).symm

theorem Inv.resume (h : Inv key n x) (hr : Ready x t) (hp : x.pc t = .inside) : Inv key n (x.resume t) := by
  have hnw : t ∉ x.k.waitersOf key := h.orderly.runnable_unwaited hr.run
  have hq : waited (x.k.thr t).waitResult ≠ .inside := by
    rcases hres : (x.k.thr t).waitResult with e | m
    · simp only [waited]; split_ifs <;> simp
    · simp only [waited]; split_ifs <;> simp
  refine ⟨h.orderly, h.plain, h.edges, fun u hu => ?_, fun u v hu => ?_, h.bit, h.parked, h.bound, ?_⟩
  · have hut : u ≠ t := by
      rintro rfl
      exact hnw hu
    simpa [Sys.resume, hut] using h.inside u hu
  · have hut := hr.outside u v hu
    simpa [Sys.resume, hut] using h.busy u v hu
  · have hgone : ¬ Handed (x.resume t) key t := fun hh => hq (by simpa [Sys.resume] using hh.1)
    have hother : ∀ u, u ≠ t → (Handed (x.resume t) key u ↔ Handed x key u) := fun u hu => by
      simp only [Handed, Sys.resume, goto_pc, hu, if_false, goto_k]
    have hc := h.conserved
    by_cases hone : (x.k.thr t).waitResult = .ok 1
    · have hx : Handed x key t := ⟨hp, hnw, hone⟩
      have hcard : handed x key = handed (x.resume t) key + 1 := handed_succ rfl
        (h.orderly.placed.ready.bound t hr.run) hgone fun u => by
          by_cases hu : u = t
          · subst hu; simp [hx]
          · simp [hother u hu, hu]
      have hw : (x.resume t).waits = x.waits + 1 := by simp [Sys.resume, unitsOf, hone]
      show n + x.posts = (x.k.words key).value + (x.resume t).waits + handed (x.resume t) key
      rw [hw]
      omega
    · have hx : ¬ Handed x key t := fun hh => hone hh.2.2
      have hcard : handed (x.resume t) key = handed x key := handed_congr rfl fun u => by
        by_cases hu : u = t
        · subst hu; exact iff_of_false hgone hx
        · exact hother u hu
      have hw : (x.resume t).waits = x.waits := by simp [Sys.resume, unitsOf, hone]
      show n + x.posts = (x.k.words key).value + (x.resume t).waits + handed (x.resume t) key
      rw [hw, hcard]
      exact hc

theorem Inv.timeout (h : Inv key n x) (ht : t ∈ x.k.sleepq) : Inv key n { x with k := x.k.timerExpire t } := by
  obtain ⟨hwait, hres, hedge, hwords, hcount⟩ := h.orderly.timerExpire_effect ht
  have hmem : t ∈ x.k.waitersOf key :=
    h.edges t (h.orderly.placed.links.parked t (h.orderly.placed.timed.blocked t ht) (by simp)).edge
  refine ⟨h.orderly.timerExpire ht, fun m hm => h.plain m (h.orderly.piOn_timerExpire ht hm), fun u hu => ?_,
    fun u hu => ?_, h.busy, ?_, fun u hu => ?_, ?_, ?_⟩
  · rw [hedge] at hu
    split_ifs at hu with hut
    · exact absurd rfl hu
    · exact (hwait u key).mpr ⟨h.edges u hu, hut⟩
  · exact h.inside u ((hwait u key).mp hu).1
  · rw [hwords]; exact h.bit
  · rw [hwords]; exact h.parked u ((hwait u key).mp hu).1
  · rw [hwords]; exact h.bound
  · have hsame : ∀ u, Handed { x with k := x.k.timerExpire t } key u ↔ Handed x key u := fun u => by
      by_cases hu : u = t
      · subst hu
        simp [Handed, hres, hmem]
      · simp [Handed, hwait, hres, hu]
    refine h.conserved.trans ?_
    rw [hwords]
    exact congrArg ((x.k.words key).value + x.waits + ·) (handed_congr (x := x) hcount hsame).symm

theorem Inv.unload {p : Pc} (h : Inv key n x) (hl : x.loaded = some (t, v)) (hp : p ≠ .inside) :
    Inv key n { x.goto t p with loaded := none } := by
  have hpc : x.pc t ≠ .inside := by rw [h.busy t v hl]; simp
  refine ⟨h.orderly, h.plain, h.edges, fun u hu => ?_, fun _ _ hu => absurd hu (by simp), h.bit, h.parked, h.bound, ?_⟩
  · have hut : u ≠ t := by
      rintro rfl
      exact hpc (h.inside u hu)
    simpa [hut] using h.inside u hu
  · have hsame : ∀ u, Handed { x.goto t p with loaded := none } key u ↔ Handed x key u := fun u => by
      by_cases hu : u = t
      · subst hu
        simp [Handed, hp, hpc]
      · simp [Handed, hu]
    refine h.conserved.trans ?_
    exact congrArg ((x.k.words key).value + x.waits + ·)
      (handed_congr (y := { x.goto t p with loaded := none }) (x := x) rfl hsame).symm

/-- A wake with one unit: it stays in the word when nobody waits, and goes to one waiter otherwise. -/
theorem Inv.woke {s : Kernel} {W : List Tid} (h : Inv key n x) (hl : x.loaded = some (t, v)) (ho : Orderly s [] none)
    (hpi : ∀ m, ¬ s.PiOn key m) (hw : x.k.words key = v) (hlen : W.length = min (x.k.waitersOf key).length 1)
    (hsub : ∀ u ∈ W, u ∈ x.k.waitersOf key) (hroom : 1 - min W.length 1 ≤ 2 ^ 31 - 1 - v.value)
    (hwoke : Woke (x.k.setWord key ⟨v.value + (1 - min W.length 1), W.length < (x.k.waitersOf key).length⟩) s W
      (min W.length 1)) :
    Inv key n { x.goto t .out with k := s, loaded := none, posts := x.posts + 1 } := by
  have hpc : x.pc t ≠ .inside := by rw [h.busy t v hl]; simp
  have hwait : ∀ u, u ∈ s.waitersOf key ↔ u ∈ x.k.waitersOf key ∧ u ∉ W := fun u => hwoke.waiters u key
  have hword : s.words key = ⟨v.value + (1 - min W.length 1), W.length < (x.k.waitersOf key).length⟩ := by
    rw [hwoke.words]
    simp [Kernel.setWord]
  have hcount : s.count = x.k.count := hwoke.count
  have hedges : ∀ u, (s.thr u).edge ≠ .none → u ∈ s.waitersOf key := fun u hu => by
    rw [hwoke.edges] at hu
    split_ifs at hu with huW
    · exact absurd rfl hu
    · exact (hwait u).mpr ⟨h.edges u hu, huW⟩
  have hinside : ∀ u ∈ s.waitersOf key, (x.goto t .out).pc u = .inside := fun u hu => by
    have hin := h.inside u ((hwait u).mp hu).1
    have hut : u ≠ t := by
      rintro rfl
      exact hpc hin
    simpa [hut] using hin
  have hbound := h.bound
  have hconserved := h.conserved
  rw [hw] at hbound hconserved
  rcases W with _ | ⟨c, _ | ⟨d, W⟩⟩
  · -- nobody waits
    have hnil : x.k.waitersOf key = [] := by
      refine List.eq_nil_of_length_eq_zero ?_
      rw [List.length_nil] at hlen
      omega
    have hsame : ∀ u, Handed { x.goto t .out with k := s, loaded := none, posts := x.posts + 1 } key u ↔
        Handed x key u := fun u => by
      by_cases hu : u = t
      · subst hu
        simp [Handed, hpc]
      · have hres : (s.thr u).waitResult = (x.k.thr u).waitResult := hwoke.others u (by simp)
        simp [Handed, hu, hwait, hnil, hres]
    have hcard := handed_congr (x := x) hcount hsame
    rw [hnil] at hword
    simp only [List.length_nil, Nat.zero_min, Nat.sub_zero, lt_irrefl, decide_false] at hword hroom
    refine ⟨ho, hpi, hedges, hinside, fun _ _ hu => absurd hu (by simp), ?_, fun u hu => ?_, ?_, ?_⟩
    · rw [hword]; simp
    · rw [hwait, hnil] at hu; cases hu.1
    · rw [hword]
      show v.value + 1 ≤ countMax
      simp only [countMax] at hbound ⊢
      omega
    · rw [hword, hcard]
      show n + (x.posts + 1) = v.value + 1 + x.waits + handed x key
      omega
  · -- one waiter gets it
    have hc := hsub c (by simp)
    have hzero : v.value = 0 := by
      rw [← hw]; exact h.bit (h.parked c hc)
    have hct : c ≠ t := by
      rintro rfl
      exact hpc (h.inside c hc)
    have hone : (s.thr c).waitResult = .ok 1 := hwoke.results 0 (by simp)
    have hmore : ∀ u, Handed { x.goto t .out with k := s, loaded := none, posts := x.posts + 1 } key u ↔
        Handed x key u ∨ u = c := fun u => by
      by_cases hu : u = t
      · subst hu
        simp [Handed, hpc, hct.symm]
      · by_cases huc : u = c
        · subst huc
          simp [Handed, hu, hwait, hone, h.inside u hc]
        · have hres : (s.thr u).waitResult = (x.k.thr u).waitResult := hwoke.others u (by simp [huc])
          simp [Handed, hu, hwait, huc, hres]
    have hcard := handed_succ (x := x) hcount (h.orderly.placed.links.bound c (h.orderly.waiter_blocked hc))
      (fun hh => hh.2.1 hc) hmore
    simp only [List.length_singleton, min_self, Nat.sub_self, Nat.add_zero] at hword
    refine ⟨ho, hpi, hedges, hinside, fun _ _ hu => absurd hu (by simp), ?_, fun u hu => ?_, ?_, ?_⟩
    · rw [hword]; exact fun _ => hzero
    · rw [hword]
      exact decide_eq_true (hwoke.more hsub hu)
    · rw [hword, hzero]; exact Nat.zero_le _
    · rw [hword, hcard]
      show n + (x.posts + 1) = v.value + x.waits + (handed x key + 1)
      omega
  · simp only [List.length_cons] at hlen
    omega

theorem Inv.commitWake (h : Inv key n x) (hl : x.loaded = some (t, v)) : Inv key n (x.commitWake key t v) := by
  have ho : Orderly (x.k.wakeAttempt (.ok key) v 1 1).1 [] none := h.orderly.wakeAttempt
  have hpi : ∀ m, ¬ (x.k.wakeAttempt (.ok key) v 1 1).1.PiOn key m := fun m hm =>
    h.plain m (h.orderly.piOn_wakeAttempt hm)
  have hcases := h.orderly.wakeAttempt_cases v 1 1 h.isPlain
  unfold Sys.commitWake
  rcases hres : x.k.wakeAttempt (.ok key) v 1 1 with ⟨s, r⟩
  rw [hres] at hcases ho hpi
  dsimp only at hcases ho hpi
  rcases hcases with ⟨rfl, ⟨rfl, -⟩ | rfl⟩ | ⟨hw, W, hlen, hsub, hroom, rfl, hwoke⟩
  · exact h.unload hl (by simp)
  · have hsame : x.goto t (x.pc t) = x := by simp [Sys.goto]
    have := h.unload (p := x.pc t) hl (by rw [h.busy t v hl]; simp)
    rwa [hsame] at this
  · exact h.woke hl ho hpi hw hlen hsub hroom hwoke

theorem Inv.load (h : Inv key n x) (hp : x.pc t = .waking) : Inv key n { x with loaded := some (t, v) } := by
  refine ⟨h.orderly, h.plain, h.edges, h.inside, fun u w hu => ?_, h.bit, h.parked, h.bound, h.conserved⟩
  cases hu
  exact hp

/-! ### Runs -/

theorem Step.inv (hs : Step key x y) (h : Inv key n x) : Inv key n y := by
  cases hs with
  | callWait t hr hp => exact h.goto hr (by rw [hp]; simp) (by simp)
  | take t v hr hp hv => exact h.takeUnit hr hp hv
  | expired t v hr hp hv => exact h.goto hr (by rw [hp]; simp) (by simp)
  | mark t v hr hp hv => exact h.setBit hr hp hv
  | wait t passed deadline hl hr hn hp => exact h.enterWait hl hr hp
  | resume t hr hp => exact h.resume hr hp
  | reread t hr hp => exact h.goto hr (by rw [hp]; simp) (by simp)
  | callPost t hr hp => exact h.goto hr (by rw [hp]; simp) (by simp)
  | post t v hr hp hv => exact h.postUnit hr hp hv
  | ask t v hr hp hv => exact h.goto hr (by rw [hp]; simp) (by simp)
  | load t hl hr hp => exact h.load hp
  | wake t v hl => exact h.commitWake hl
  | timeout t hl ht => exact h.timeout ht
  | rotate c hl hc =>
    exact h.of_core (pickAndSeat_core.trans rqRotate_core) (h.orderly.yield hc.runnable)
  | pass hl => exact h.of_core pickAndSeat_core h.orderly.pickAndSeat

theorem inv_init {s : Kernel} (h : Boot s) (hf : s.faulted = false) (hn : n ≤ countMax) :
    Inv key n { k := s.setWord key { value := n } } := by
  have hnone : (s.setWord key { value := n }).waitersOf key = [] := by
    simp [waitersOf, recordFind, Kernel.setWord, h.active]
  have hword : (s.setWord key { value := n }).words key = { value := n } := by simp [Kernel.setWord]
  have ho : Orderly s [] none := ⟨h.inv.placed, h.inv.tidy.recorded, hf⟩
  refine ⟨ho.setWord, fun m hm => ?_, fun t ht => ?_, fun t ht => ?_, fun _ _ ht => absurd ht (by simp), ?_,
    fun t ht => ?_, ?_, ?_⟩
  · have hk := hm.1
    simp [Kernel.setWord, (h.wrec m).1] at hk
  · exact absurd (h.fresh t).2.2.1 ht
  · rw [hnone] at ht; cases ht
  · rw [hword]; intro hb; cases hb
  · rw [hnone] at ht; cases ht
  · rw [hword]; exact hn
  · have hzero : handed { k := s.setWord key { value := n } } key = 0 := by
      simp [handed, Handed]
    rw [hword, hzero]
    rfl

theorem Reachable.inv (h : Reachable key n x) : Inv key n x := by
  induction h with
  | init s hb hf hn => exact inv_init hb hf hn
  | step x y _ hs ih => exact hs.inv ih

/-- Units are conserved over every run of the semaphore. The waiters bit is set over every parked thread and never
beside a unit, so no unit stands in the count while a thread is parked. -/
theorem semaphore_conserved (h : Reachable key n x) :
    n + x.posts = (x.k.words key).value + x.waits + handed x key ∧
    ((x.k.words key).waiters = true → (x.k.words key).value = 0) ∧
    (∀ t ∈ x.k.waitersOf key, (x.k.thr t).state = .blocked ∧ (x.k.words key).waiters = true ∧ (x.k.words key).value = 0) ∧
    (x.k.words key).value ≤ countMax := by
  have hi := h.inv
  exact ⟨hi.conserved, hi.bit, fun t ht => ⟨hi.orderly.waiter_blocked ht, hi.parked t ht, hi.bit (hi.parked t ht)⟩, hi.bound⟩

/-- The high thread of the pair parked on an empty semaphore. -/
def waiting : Sys :=
  ((({ k := (pair.setWord 7 { value := 0 }).reschedule } : Sys).goto 1 (.take { value := 0 })).setBit 7 1
    { value := 0 }).enterWait 7 1 false none

theorem waiting_reachable : Reachable 7 0 waiting := by
  have h0 : Reachable 7 0 _ := .init pair pair_boot rfl (Nat.zero_le _)
  have h1 := Reachable.step _ _ h0 (.pass _ rfl)
  have h2 := Reachable.step _ _ h1 (.callWait _ 1 ⟨.inr (by decide), nofun⟩ rfl)
  have h3 := Reachable.step _ _ h2 (.mark _ 1 { value := 0 } ⟨.inr (by decide), nofun⟩ rfl rfl)
  exact .step _ _ h3 (.wait _ 1 false none rfl ⟨by decide, by decide⟩ (by decide) (by decide))

/-- The low thread has posted, and the high one has not returned. -/
def posted : Sys :=
  ({ (waiting.goto 0 (.give (waiting.k.words 7))).goto 0 .waking with
    loaded := some (0, waiting.k.words 7) } : Sys).commitWake 7 0 (waiting.k.words 7)

theorem semaphore_conserved_posted : waiting.k.waitersOf 7 = [1] ∧ handed posted 7 = 1 ∧
    0 + posted.posts = (posted.k.words 7).value + posted.waits + handed posted 7 := by
  have h1 := Reachable.step _ _ waiting_reachable (.callPost _ 0 ⟨.inr (by decide), nofun⟩ (by decide))
  have h2 := Reachable.step _ _ h1 (.ask _ 0 (waiting.k.words 7) ⟨.inr (by decide), nofun⟩ (by decide)
    (by decide))
  have h3 := Reachable.step _ _ h2 (.load _ 0 (by decide) ⟨by decide, by decide⟩ (by decide))
  have h4 := Reachable.step _ _ h3 (.wake _ 0 (waiting.k.words 7) rfl)
  exact ⟨by decide, by decide, (semaphore_conserved (x := posted) h4).1⟩

end Sem
end KickOS
