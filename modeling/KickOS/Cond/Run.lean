import KickOS.Cond.Protocol

/-! Every run of the condition variable: a thread that parked has seen every advance there was, so a broadcast leaves
behind none that released the mutex in front of it. -/

namespace KickOS
namespace Cond
open Kernel Mutex

variable {x y : Sys} {key mk : Key} {t u b : Tid} {v w : Word} {s : Kernel} {p : Pc} {i n : Nat}

/-- The sequence a thread on its way into a wait has read. -/
def Pc.seq : Pc → Option Nat
  | .releasing s | .unlocking s | .released s | .entering s => some s
  | _ => none

/-- Between the release of the mutex and the kernel. -/
def Pc.past : Pc → Bool
  | .released _ | .entering _ => true
  | _ => false

/-- What a thread may rely on at `p`. -/
structure Ok (x : Sys) (t : Tid) (p : Pc) : Prop where
  seq : ∀ s, p.seq = some s → s = sequence (x.readNo t)
  past : p.past = true → x.readNo t ≤ x.releaseNo t
  waking : ∀ n all, p = .waking n all → n ≤ x.bumps

theorem Ok.same (h : Ok x t p) (h1 : y.readNo t = x.readNo t) (h2 : y.releaseNo t = x.releaseNo t)
    (h3 : y.bumps = x.bumps) : Ok y t p :=
  ⟨fun s hs => by rw [h1]; exact h.seq s hs, fun hs => by rw [h1, h2]; exact h.past hs,
    fun n all hs => by rw [h3]; exact h.waking n all hs⟩

structure Inv (key mk : Key) (x : Sys) : Prop where
  apart : mk ≠ key
  orderly : Orderly x.k [] none
  plain : ∀ m, ¬ x.k.PiOn key m
  seq : (x.k.words key).value = sequence x.bumps
  bit : ∀ t ∈ x.k.waitersOf key, (x.k.words key).waiters = true
  inside : ∀ t ∈ x.k.waitersOf key, x.pc t = .inside
  /-- A parked thread released the mutex behind every broadcast that has returned. -/
  late : ∀ t ∈ x.k.waitersOf key, ∀ n ∈ x.broadcasts, n ≤ x.releaseNo t
  pcs : ∀ t, Ok x t (x.pc t)
  reads : ∀ t, x.readNo t ≤ x.bumps
  released : ∀ t, x.releaseNo t ≤ x.bumps
  counted : ∀ n ∈ x.broadcasts, n ≤ x.bumps
  ceiling : x.k.count ≤ 254
  busy : ∀ t k v, x.loaded = some (t, k, v) → x.k.Runnable t ∧ (x.pc t).word key mk = some k

@[simp] theorem goto_pc (x : Sys) (t u : Tid) (p : Pc) : (x.goto t p).pc u = if u = t then p else x.pc u := by
  simp [Sys.goto, Function.update_apply]

@[simp] theorem goto_k (x : Sys) (t : Tid) (p : Pc) : (x.goto t p).k = x.k := rfl

theorem Inv.isPlain (h : Inv key mk x) : ∀ m, x.k.recordFind key = some m → (x.k.wrec m).kind = .plain :=
  h.orderly.plain_of_find h.plain

theorem Inv.unwaited (h : Inv key mk x) (hr : x.k.Runnable t) : t ∉ x.k.waitersOf key :=
  h.orderly.runnable_unwaited hr

/-! ### Steps that spare the word -/

theorem Inv.spared (h : Inv key mk x) (ho : Orderly s [] none) (hs : Spares x.k s key) :
    Inv key mk { x with k := s, loaded := none } := by
  have hmem : ∀ u ∈ s.waitersOf key, u ∈ x.k.waitersOf key := fun u hu => hs.mem h.orderly.recorded ho.recorded hu
  exact ⟨h.apart, ho, fun m hm => h.plain m (hs.pi m hm), hs.word ▸ h.seq, fun u hu => hs.word ▸ h.bit u (hmem u hu),
    fun u hu => h.inside u (hmem u hu), fun u hu => h.late u (hmem u hu), fun u => (h.pcs u).same rfl rfl rfl, h.reads,
    h.released, h.counted, hs.count ▸ h.ceiling, fun _ _ _ hl => absurd hl (by simp)⟩

theorem Inv.goto (h : Inv key mk x) (ht : t ∉ x.k.waitersOf key) (hp : Ok x t p)
    (hl : ∀ c k v, x.loaded = some (c, k, v) → c ≠ t) : Inv key mk (x.goto t p) := by
  refine ⟨h.apart, h.orderly, h.plain, h.seq, h.bit, fun u hu => ?_, h.late, fun u => ?_, h.reads, h.released, h.counted,
    h.ceiling, fun u k v hu => ?_⟩
  · have hut : u ≠ t := by
      rintro rfl
      exact ht hu
    simpa [hut] using h.inside u hu
  · rw [goto_pc]
    split_ifs with hut
    · subst hut; exact hp.same rfl rfl rfl
    · exact (h.pcs u).same rfl rfl rfl
  · have hut := hl u k v hu
    simpa [hut] using h.busy u k v hu

theorem Ready.goto (hr : Ready x t) (h : Inv key mk x) (hp : Ok x t p) : Inv key mk (x.goto t p) :=
  h.goto (h.unwaited hr.run) hp hr.outside

theorem Inv.setMutex (h : Inv key mk x) : Inv key mk { x with k := x.k.setWord mk v } := by
  have hword : (x.k.setWord mk v).words key = x.k.words key := (Spares.setWord h.apart).word
  exact ⟨h.apart, h.orderly.setWord, h.plain, hword ▸ h.seq, fun u hu => hword ▸ h.bit u hu, h.inside, h.late,
    fun u => (h.pcs u).same rfl rfl rfl, h.reads, h.released, h.counted, h.ceiling, h.busy⟩

theorem Inv.kosMutexLock (h : Inv key mk x) : Inv key mk { x with k := (x.k.kosMutexLock t mk).1 } := by
  unfold Kernel.kosMutexLock
  split_ifs
  · exact h.setMutex
  · exact h
  · exact h

theorem Inv.kosMutexUnlock (h : Inv key mk x) : Inv key mk { x with k := (x.k.kosMutexUnlock t mk).1 } := by
  unfold Kernel.kosMutexUnlock
  split_ifs
  · exact h.setMutex
  · exact h
  · exact h

theorem Inv.ownerExit (h : Inv key mk x) (hc : x.k.Runnable t) :
    Orderly (Kernel.mutexOwnerExit t (x.k.thr t).heldList.length (x.k.onThr t fun y => { y with dying := true })) [] none ∧
    Spares x.k (Kernel.mutexOwnerExit t (x.k.thr t).heldList.length (x.k.onThr t fun y => { y with dying := true })) key := by
  have hrun : (x.k.onThr t fun y => { y with dying := true }).Runnable t := by
    rw [Runnable, field_onThr Thread.state rfl]; exact hc
  have hmark : Spares x.k (x.k.onThr t fun y => { y with dying := true }) key :=
    ⟨fun _ _ hk hu => ⟨hk, hu⟩, fun _ hm => hm, rfl, rfl⟩
  refine ⟨(h.orderly.mark.mutexOwnerExit _ _ hrun ?_).1,
    hmark.trans (h.orderly.mark.spares_mutexOwnerExit _ _ hrun h.plain)⟩
  rw [field_onThr Thread.heldList rfl]

/-! ### The ghosts -/

theorem Inv.stampRead (h : Inv key mk x) (hp : (x.pc t).seq = none) (hq : (x.pc t).past = false) :
    Inv key mk { x with readNo := Function.update x.readNo t x.bumps } := by
  refine ⟨h.apart, h.orderly, h.plain, h.seq, h.bit, h.inside, h.late, fun u => ?_, fun u => ?_, h.released, h.counted,
    h.ceiling, h.busy⟩
  · by_cases hut : u = t
    · subst hut
      exact ⟨fun s hs => (by rw [hp] at hs; cases hs), fun hs => (by rw [hq] at hs; cases hs), (h.pcs u).waking⟩
    · refine ⟨fun s hs => ?_, fun hs => ?_, (h.pcs u).waking⟩
      · simpa [hut] using (h.pcs u).seq s hs
      · simpa [hut] using (h.pcs u).past hs
  · by_cases hut : u = t
    · simp [hut]
    · simpa [hut] using h.reads u

theorem Inv.stampRelease (h : Inv key mk x) (ht : t ∉ x.k.waitersOf key) :
    Inv key mk { x with
      releaseNo := Function.update x.releaseNo t x.bumps
      releases := Function.update x.releases t (x.releases t + 1) } := by
  refine ⟨h.apart, h.orderly, h.plain, h.seq, h.bit, h.inside, fun u hu n hn => ?_, fun u => ?_, h.reads, fun u => ?_,
    h.counted, h.ceiling, h.busy⟩
  · have hut : u ≠ t := by
      rintro rfl
      exact ht hu
    simpa [hut] using h.late u hu n hn
  · refine ⟨(h.pcs u).seq, fun hs => ?_, (h.pcs u).waking⟩
    by_cases hut : u = t
    · subst hut; simpa using h.reads u
    · simpa [hut] using (h.pcs u).past hs
  · by_cases hut : u = t
    · simp [hut]
    · simpa [hut] using h.released u

/-! ### The steps around the mutex -/

theorem ok_plain (hp : p.seq = none) (hq : p.past = false) (hw : ∀ n all, p ≠ .waking n all) : Ok x t p :=
  ⟨fun _ hs => absurd (hp.symm.trans hs) (by simp), fun hs => absurd (hq.symm.trans hs) (by simp),
    fun n all hs => absurd hs (hw n all)⟩

theorem ok_retaken (r : Answer) : Ok x t (retaken r) := by
  unfold retaken
  split_ifs <;> exact ok_plain rfl rfl (by simp)

theorem ok_waited (r : Answer) : Ok x t (waited r) := ok_plain rfl rfl (by simp [waited])

theorem Inv.landed (h : Inv key mk x) (hr : x.k.Runnable t) (ho : Orderly s [] none) (hs : Spares x.k s key)
    (hp : Ok x t p) : Inv key mk { x.goto t p with k := s, loaded := none } := by
  have h1 := h.spared ho hs
  exact h1.goto (fun hm => h.unwaited hr (hs.mem h.orderly.recorded ho.recorded hm)) (hp.same rfl rfl rfl)
    fun _ _ _ hl => absurd hl (by simp)

theorem Inv.release (h : Inv key mk x) (ht : t ∉ x.k.waitersOf key) (hl : ∀ c k v, x.loaded = some (c, k, v) → c ≠ t)
    {q : Nat} (hq : q = sequence (x.readNo t)) : Inv key mk (x.release t q) := by
  refine (h.stampRelease ht).goto (t := t) (p := .released q) ht ⟨fun s hs => ?_, fun _ => ?_, fun n all hs => ?_⟩ hl
  · exact (Option.some.inj hs).symm.trans hq
  · simpa using h.reads t
  · cases hs

theorem Inv.userRelease {q : Nat} (h : Inv key mk x) (hr : Ready x t) (hp : x.pc t = .releasing q) :
    Inv key mk (x.userRelease mk t q) := by
  have hq : q = sequence (x.readNo t) := (h.pcs t).seq q (by rw [hp]; rfl)
  have h1 := h.kosMutexUnlock (t := t)
  have hrun : ∀ u, (x.k.kosMutexUnlock t mk).1.Runnable u ↔ x.k.Runnable u := fun u => by
    unfold Kernel.kosMutexUnlock
    split_ifs <;> rfl
  have ht := h1.unwaited ((hrun t).mpr hr.run)
  unfold Sys.userRelease
  rcases hres : x.k.kosMutexUnlock t mk with ⟨s, r⟩
  rw [hres] at h1 ht
  rcases r with _ | _ | _
  · refine h1.goto (p := .unlocking q) ht ⟨fun s hs => ?_, fun hs => absurd hs (by simp [Pc.past]),
      fun n all hs => absurd hs (by simp)⟩ hr.outside
    exact (Option.some.inj hs).symm.trans hq
  · exact h1.goto ht (ok_plain rfl rfl (by simp)) hr.outside
  · exact h1.release ht hr.outside hq

theorem Inv.commitRelease {q : Nat} (h : Inv key mk x) (hl : x.loaded = some (t, mk, v)) (hp : x.pc t = .unlocking q) :
    Inv key mk (x.commitRelease mk t q v) := by
  have hq : q = sequence (x.readNo t) := (h.pcs t).seq q (by rw [hp]; rfl)
  have hrun := (h.busy t mk v hl).1
  have ho : Orderly (x.k.unlockAttempt t (.ok mk) v).1 [] none := h.orderly.unlockAttempt hrun
  have hs := h.orderly.spares_unlockAttempt (v := v) hrun h.apart
  unfold Sys.commitRelease
  rcases hres : x.k.unlockAttempt t (.ok mk) v with ⟨s, r⟩
  rw [hres] at ho hs
  rcases r with (_ | _) | _ | _
  · exact h.landed hrun ho hs (ok_plain rfl rfl (by simp))
  · have h1 := h.spared ho hs
    exact h1.release (fun hm => h.unwaited hrun (hs.mem h.orderly.recorded ho.recorded hm))
      (fun _ _ _ hl => absurd hl (by simp)) hq
  · exact h.spared ho hs
  · exact h.spared ho hs

theorem Inv.userRetake (h : Inv key mk x) (hr : Ready x t) : Inv key mk (x.userRetake mk t) := by
  have h1 := h.kosMutexLock (t := t)
  have hrun : ∀ u, (x.k.kosMutexLock t mk).1.Runnable u ↔ x.k.Runnable u := fun u => by
    unfold Kernel.kosMutexLock
    split_ifs <;> rfl
  have ht := h1.unwaited ((hrun t).mpr hr.run)
  unfold Sys.userRetake
  rcases hres : x.k.kosMutexLock t mk with ⟨s, r⟩
  rw [hres] at h1 ht
  rcases r with _ | r
  · exact h1.goto ht (ok_plain rfl rfl (by simp)) hr.outside
  · exact h1.goto ht (ok_retaken r) hr.outside

theorem Inv.commitRetake {couldHold : Tid → Bool} (h : Inv key mk x) (hl : x.loaded = some (t, mk, v)) :
    Inv key mk (x.commitRetake mk t couldHold v) := by
  have hrun := (h.busy t mk v hl).1
  have ho : Orderly (x.k.lockAttempt t (.ok mk) couldHold v false none).1 [] none := h.orderly.lockAttempt hrun
  have hs := h.orderly.spares_lockAttempt couldHold v false none hrun h.apart
  unfold Sys.commitRetake
  rcases hres : x.k.lockAttempt t (.ok mk) couldHold v false none with ⟨s, r⟩
  rw [hres] at ho hs
  rcases r with r | _ | _
  · exact h.landed hrun ho hs (ok_retaken r)
  · exact h.landed hrun ho hs (ok_plain rfl rfl (by simp))
  · exact h.spared ho hs

/-! ### The steps on the word -/

theorem sequence_inj {a b : Nat} (h : sequence a = sequence b) (hab : a ≤ b) (hb : b < a + 2 ^ 31) : a = b := by
  simp only [sequence] at h
  omega

theorem sequence_succ (a : Nat) : sequence (sequence a + 1) = sequence (a + 1) := by
  simp only [sequence]
  omega

theorem Inv.setWord (h : Inv key mk x) (hv : v.value = (x.k.words key).value)
    (hb : (x.k.words key).waiters = true → v.waiters = true) : Inv key mk { x with k := x.k.setWord key v } := by
  have hword : (x.k.setWord key v).words key = v := by simp [Kernel.setWord]
  refine ⟨h.apart, h.orderly.setWord, h.plain, ?_, fun u hu => ?_, h.inside, h.late, fun u => (h.pcs u).same rfl rfl rfl,
    h.reads, h.released, h.counted, h.ceiling, h.busy⟩
  · rw [hword, hv]; exact h.seq
  · rw [hword]; exact hb (h.bit u hu)

theorem Inv.mark {q : Nat} (h : Inv key mk x) (hr : Ready x t) (hp : x.pc t = .released q) :
    Inv key mk (x.mark key t q) := by
  have hok : Ok x t (.entering q) := by
    have := h.pcs t
    rw [hp] at this
    exact ⟨fun s hs => this.seq s hs, fun _ => this.past rfl, fun n all hs => (by cases hs)⟩
  unfold Sys.mark
  split_ifs with h1 h2
  · have h3 := h.setWord (v := ⟨q, true⟩) (by rw [h1]) fun _ => rfl
    exact h3.goto (h.unwaited hr.run) (hok.same rfl rfl rfl) hr.outside
  · exact hr.goto h hok
  · exact hr.goto h (ok_plain rfl rfl (by simp))

theorem Inv.enterWait {q : Nat} (passed : Bool) (d : Option Nat) (h : Inv key mk x) (hl : x.loaded = none)
    (hr : Running x.k t) (hp : x.pc t = .entering q) (hg : x.bumps < x.readNo t + 2 ^ 31) :
    Inv key mk (x.enterWait key t q passed d) ∧
      ∀ u ∈ (x.enterWait key t q passed d).k.waitersOf key, u ∈ x.k.waitersOf key ∨ u = t ∧ x.readNo t = x.bumps := by
  have hidle : ∀ c k v, x.loaded = some (c, k, v) → c ≠ t := fun c k v hc => by rw [hl] at hc; cases hc
  have hunw := h.unwaited hr.runnable
  have hok := h.pcs t
  rw [hp] at hok
  have ho : Orderly (x.k.wordWait t (.ok key) ⟨q, true⟩ passed d).1 [] none := h.orderly.wordWait hr.runnable
  have hpi : ∀ m, ¬ (x.k.wordWait t (.ok key) ⟨q, true⟩ passed d).1.PiOn key m := fun m hm =>
    h.plain m (h.orderly.piOn_wordWait hr.runnable hm)
  have hcases := h.orderly.wordWait_cases ⟨q, true⟩ passed d hr.runnable h.isPlain
  unfold Sys.enterWait
  rcases hres : x.k.wordWait t (.ok key) ⟨q, true⟩ passed d with ⟨s, r⟩
  rw [hres] at hcases ho hpi
  dsimp only at hcases ho hpi
  rcases hcases with ⟨rfl, ⟨rfl, -⟩ | rfl⟩ | ⟨hw, rfl, hwait, -, -, hwords, hcount⟩
  · exact ⟨h.goto hunw (ok_waited _) hidle, fun u hu => .inl hu⟩
  · exact ⟨h.goto hunw (ok_waited _) hidle, fun u hu => .inl hu⟩
  -- the word holds the sequence of the read, so nothing advanced it since
  have hseen : x.readNo t = x.bumps := by
    refine sequence_inj ?_ (h.reads t) hg
    rw [← hok.seq q rfl, ← h.seq, hw]
  have hlast : x.releaseNo t = x.bumps := Nat.le_antisymm (h.released t) (hseen ▸ hok.past rfl)
  refine ⟨⟨h.apart, ho, hpi, ?_, fun u _ => ?_, fun u hu => ?_, fun u hu n hn => ?_, fun u => ?_, h.reads, h.released,
    h.counted, ?_, fun c k v hc => ?_⟩, fun u hu => ((hwait u key).mp hu).imp id fun hu => ⟨hu.1, hseen⟩⟩
  · rw [hwords]; exact h.seq
  · rw [hwords, hw]
  · rcases (hwait u key).mp hu with hu | ⟨rfl, -⟩
    · simp [h.inside u hu]
    · simp
  · rcases (hwait u key).mp hu with hu | ⟨rfl, -⟩
    · exact h.late u hu n hn
    · show n ≤ x.releaseNo u
      rw [hlast]; exact h.counted n hn
  · rw [goto_pc]
    split_ifs with hut
    · subst hut; exact ok_plain rfl rfl (by simp)
    · exact (h.pcs u).same rfl rfl rfl
  · rw [hcount]; exact h.ceiling
  · exact absurd rfl (hidle t k v (by rw [show x.loaded = some (c, k, v) from hc] at hl; cases hl))

/-- One advance, with a thread that goes on and a broadcast that returns only where nobody waits. -/
theorem Inv.bumped {l : List Nat} (h : Inv key mk x) (hr : Ready x t) (hp : Ok { x with bumps := x.bumps + 1 } t p)
    (hl : ∀ n ∈ l, n = x.bumps + 1 ∨ n ∈ x.broadcasts) (hlate : (x.k.words key).waiters = true → l = x.broadcasts) :
    Inv key mk { x.goto t p with
      k := x.k.setWord key { x.k.words key with value := sequence ((x.k.words key).value + 1) }
      bumps := x.bumps + 1
      broadcasts := l } := by
  have hunw := h.unwaited hr.run
  have hword : (x.k.setWord key { x.k.words key with value := sequence ((x.k.words key).value + 1) }).words key =
      { x.k.words key with value := sequence ((x.k.words key).value + 1) } := by simp [Kernel.setWord]
  refine ⟨h.apart, h.orderly.setWord, h.plain, ?_, fun u hu => ?_, fun u hu => ?_, fun u hu n hn => ?_, fun u => ?_,
    fun u => Nat.le_succ_of_le (h.reads u), fun u => Nat.le_succ_of_le (h.released u), fun n hn => ?_, h.ceiling,
    fun u k v hu => ?_⟩
  · rw [hword]
    show sequence ((x.k.words key).value + 1) = sequence (x.bumps + 1)
    rw [h.seq, sequence_succ]
  · rw [hword]; exact h.bit u hu
  · have hut : u ≠ t := by
      rintro rfl
      exact hunw hu
    simpa [hut] using h.inside u hu
  · have hold : l = x.broadcasts := hlate (h.bit u hu)
    exact h.late u hu n (hold ▸ hn)
  · rw [goto_pc]
    split_ifs with hut
    · subst hut; exact hp.same rfl rfl rfl
    · exact ⟨(h.pcs u).seq, (h.pcs u).past, fun n all hs => Nat.le_succ_of_le ((h.pcs u).waking n all hs)⟩
  · rcases hl n hn with rfl | hn
    · exact Nat.le_refl _
    · exact Nat.le_succ_of_le (h.counted n hn)
  · have hut := hr.outside u k v hu
    obtain ⟨hrun, hpc⟩ := h.busy u k v hu
    exact ⟨hrun, by simpa [hut] using hpc⟩

theorem Inv.advance (v : Word) (all : Bool) (h : Inv key mk x) (hr : Ready x t) : Inv key mk (x.advance key t v all) := by
  by_cases hw : x.k.words key = v
  · subst hw
    rw [Sys.advance, if_pos rfl]
    refine h.bumped hr ?_ (fun n hn => ?_) fun hbit => if_neg (by simp [hbit])
    · rcases (x.k.words key).waiters with _ | _
      · exact ok_plain rfl rfl (by simp)
      · refine ⟨fun _ hs => absurd hs (by simp [Pc.seq]), fun hs => absurd hs (by simp [Pc.past]), fun n all hs => ?_⟩
        cases hs
        exact Nat.le_refl _
    · split_ifs at hn
      · exact List.mem_cons.mp hn
      · exact .inr hn
  · rw [Sys.advance, if_neg hw]
    exact hr.goto h (ok_plain rfl rfl (by simp))

theorem Inv.woken_all {W : List Tid} (h : Inv key mk x) (hlen : W.length = min (x.k.waitersOf key).length (2 ^ 32 - 1))
    (hsub : ∀ u ∈ W, u ∈ x.k.waitersOf key) (hwoke : Woke (x.k.setWord key v) s W n) : u ∉ s.waitersOf key := by
  intro hu
  have hlt : W.length < (x.k.waitersOf key).length := hwoke.more hsub hu
  have hle := h.orderly.waiters_le (k := key)
  have hc := h.ceiling
  omega

theorem Inv.commitWake {all : Bool} (h : Inv key mk x) (hl : x.loaded = some (t, key, v)) (hp : x.pc t = .waking n all) :
    Inv key mk (x.commitWake key t v n all) := by
  have hrun := (h.busy t key v hl).1
  have ho : Orderly (x.k.wakeAttempt (.ok key) v (if all then 2 ^ 32 - 1 else 1) 0).1 [] none := h.orderly.wakeAttempt
  have hpi : ∀ m, ¬ (x.k.wakeAttempt (.ok key) v (if all then 2 ^ 32 - 1 else 1) 0).1.PiOn key m := fun m hm =>
    h.plain m (h.orderly.piOn_wakeAttempt hm)
  have hcases := h.orderly.wakeAttempt_cases v (if all then 2 ^ 32 - 1 else 1) 0 h.isPlain
  unfold Sys.commitWake
  rcases hres : x.k.wakeAttempt (.ok key) v (if all then 2 ^ 32 - 1 else 1) 0 with ⟨s, r⟩
  rw [hres] at hcases ho hpi
  dsimp only at hcases ho hpi
  rcases hcases with ⟨rfl, ⟨rfl, hu⟩ | rfl⟩ | ⟨hw, W, hlen, hsub, -, rfl, hwoke⟩
  · exact absurd hu (Nat.lt_irrefl 0)
  · exact h.spared h.orderly (.refl _ _)
  have hwait : ∀ u, u ∈ s.waitersOf key ↔ u ∈ x.k.waitersOf key ∧ u ∉ W := fun u => hwoke.waiters u key
  have hword : s.words key = ⟨v.value, W.length < (x.k.waitersOf key).length⟩ := by
    rw [hwoke.words]
    simp [Kernel.setWord]
  have hout : ∀ u ∈ s.waitersOf key, u ≠ t := by
    rintro u hu rfl
    exact h.unwaited hrun ((hwait u).mp hu).1
  refine ⟨h.apart, ho, hpi, ?_, fun u hu => ?_, fun u hu => ?_, fun u hu m hm => ?_, fun u => ?_, h.reads, h.released,
    fun m hm => ?_, hwoke.count ▸ h.ceiling, fun _ _ _ hc => absurd hc (by simp)⟩
  · rw [hword, ← hw]; exact h.seq
  · rw [hword]
    exact decide_eq_true (hwoke.more hsub hu)
  · simpa [hout u hu] using h.inside u ((hwait u).mp hu).1
  · rcases all with _ | _
    · exact h.late u ((hwait u).mp hu).1 m hm
    · exact absurd hu (h.woken_all hlen hsub hwoke)
  · show Ok _ u ((x.goto t .out).pc u)
    rw [goto_pc]
    by_cases hut : u = t
    · rw [if_pos hut]; exact ok_plain rfl rfl (by simp)
    · rw [if_neg hut]; exact (h.pcs u).same rfl rfl rfl
  · rcases all with _ | _
    · exact h.counted m hm
    · rcases List.mem_cons.mp hm with rfl | hm
      · exact (h.pcs t).waking m true hp
      · exact h.counted m hm

/-! ### Runs -/

theorem Step.inv (hs : Step key mk x y) (h : Inv key mk x) : Inv key mk y := by
  cases hs with
  | read t hr hp =>
    have h1 := h.stampRead (t := t) (by rw [hp]; rfl) (by rw [hp]; rfl)
    refine h1.goto (h.unwaited hr.run) ⟨fun s hs => ?_, fun hs => absurd hs (by simp [Pc.past]),
      fun n all hs => absurd hs (by simp)⟩ hr.outside
    have hs' : (x.k.words key).value = s := Option.some.inj hs
    simpa [← hs'] using h.seq
  | userRelease t s hr hp => exact h.userRelease hr hp
  | release t s v hl hp => exact h.commitRelease hl hp
  | mark t s hr hp => exact h.mark hr hp
  | wait t s passed deadline hl hr hn hp hg => exact (h.enterWait passed deadline hl hr hp hg).1
  | resume t hr hp => exact hr.goto h (ok_waited _)
  | userRetake t hr hp => exact h.userRetake hr
  | retake t couldHold v hl hn hp => exact h.commitRetake hl
  | retaken t hr hp => exact hr.goto h (ok_retaken _)
  | call t all hr hp => exact hr.goto h (ok_plain rfl rfl (by simp))
  | advance t v all hr hp => exact h.advance v all hr
  | wake t v n all hl hp => exact h.commitWake hl hp
  | userLock t hr hp => exact h.kosMutexLock
  | userUnlock t hr hp => exact h.kosMutexUnlock
  | lock t couldHold v passed deadline hl hn hp =>
    have hrun := (h.busy t mk v hl).1
    exact h.spared (h.orderly.lockAttempt hrun) (h.orderly.spares_lockAttempt couldHold v passed deadline hrun h.apart)
  | unlock t v hl hp =>
    have hrun := (h.busy t mk v hl).1
    exact h.spared (h.orderly.unlockAttempt hrun) (h.orderly.spares_unlockAttempt hrun h.apart)
  | load t k hl hr hd hp =>
    refine ⟨h.apart, h.orderly, h.plain, h.seq, h.bit, h.inside, h.late, fun u => (h.pcs u).same rfl rfl rfl, h.reads,
      h.released, h.counted, h.ceiling, fun c k v hc => ?_⟩
    cases hc
    exact ⟨hr.runnable, hp⟩
  | timeout t hl ht => exact hl ▸ h.spared (h.orderly.timerExpire ht) (h.orderly.spares_timerExpire ht)
  | cancel t kind hl => exact hl ▸ h.spared h.orderly.threadCancelKind h.orderly.spares_threadCancelKind
  | die c hl hc => exact hl ▸ h.spared (h.ownerExit hc.runnable).1 (h.ownerExit hc.runnable).2
  | finish c hl hc hd hh =>
    exact hl ▸ h.spared (h.orderly.retire hc.runnable).pickAndSeat (.of_core (pickAndSeat_core.trans retire_core))
  | rotate c hl hc =>
    exact hl ▸ h.spared (h.orderly.yield hc.runnable) (.of_core (pickAndSeat_core.trans rqRotate_core))
  | pass hl => exact hl ▸ h.spared h.orderly.pickAndSeat (.of_core pickAndSeat_core)

theorem inv_boot (h : Boot s) (hf : s.faulted = false) (hk : mk ≠ key) : Inv key mk { k := s } := by
  have hnone : s.waitersOf key = [] := by simp [waitersOf, recordFind, h.active]
  have hno : ∀ u, u ∉ s.waitersOf key := fun u hu => by rw [hnone] at hu; cases hu
  refine ⟨hk, ⟨h.inv.placed, h.inv.tidy.recorded, hf⟩, fun m hm => ?_, ?_, fun u hu => absurd hu (hno u),
    fun u hu => absurd hu (hno u), fun u hu => absurd hu (hno u), fun u => ok_plain rfl rfl (by simp), fun _ => Nat.le_refl _,
    fun _ => Nat.le_refl _, fun n hn => absurd hn (by simp), h.ceiling, fun _ _ _ hl => absurd hl (by simp)⟩
  · have hkind := hm.1
    rw [(h.wrec m).1] at hkind; cases hkind
  · rw [h.words key]; rfl

theorem Reachable.inv (h : Reachable key mk x) : Inv key mk x := by
  induction h with
  | boot s hb hf hk => exact inv_boot hb hf hk
  | step x y _ hs ih => exact hs.inv ih

end Cond
end KickOS
