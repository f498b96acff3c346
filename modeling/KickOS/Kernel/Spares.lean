import KickOS.Kernel.Waiters

/-! What the mutex operations leave of a word that is no mutex. -/

namespace KickOS
namespace Kernel

variable {s s' : Kernel} {D : List Tid} {t c w o u : Tid} {m i : Rid} {key k : Key} {hole : Option Rid} {d : Option Nat}

/-- Nobody new waits on the word, no mutex got a record there, and its value is as it was. -/
structure Spares (s s' : Kernel) (key : Key) : Prop where
  waiters : ∀ m u, (s'.wrec m).key = key → u ∈ (s'.wrec m).waiters → (s.wrec m).key = key ∧ u ∈ (s.wrec m).waiters
  pi : ∀ m, s'.PiOn key m → s.PiOn key m
  word : s'.words key = s.words key
  count : s'.count = s.count

theorem Spares.refl (s : Kernel) (key : Key) : Spares s s key := ⟨fun _ _ hk hu => ⟨hk, hu⟩, fun _ hm => hm, rfl, rfl⟩

theorem Spares.trans {s'' : Kernel} (h : Spares s s' key) (h' : Spares s' s'' key) : Spares s s'' key where
  waiters m u hk hu := by
    obtain ⟨hk', hu'⟩ := h'.waiters m u hk hu
    exact h.waiters m u hk' hu'
  pi m hm := h.pi m (h'.pi m hm)
  word := h'.word.trans h.word
  count := h'.count.trans h.count

theorem Spares.of_core (hc : s'.core = s.core) : Spares s s' key := by
  have hrec : s'.wrec = s.wrec := core_read Kernel.wrec hc fun _ => rfl
  refine ⟨fun m u hk hu => ?_, fun m hm => (piOn_core hc).mp hm, by rw [words_core hc], count_core hc⟩
  rw [hrec] at hk hu
  exact ⟨hk, hu⟩

theorem Spares.mem (h : Spares s s' key) (hr : Recorded s none) (hr' : Recorded s' none) (hu : u ∈ s'.waitersOf key) :
    u ∈ s.waitersOf key := by
  obtain ⟨m, hk, hm⟩ := hr'.mem_waitersOf.mp hu
  exact hr.mem_waitersOf.mpr ⟨m, h.waiters m u hk hm⟩

/-! ### The writes a mutex operation is made of -/

theorem Spares.setWord {v : Word} (hk : k ≠ key) : Spares s (s.setWord k v) key :=
  ⟨fun _ _ hk hu => ⟨hk, hu⟩, fun _ hm => hm, by simp [Kernel.setWord, hk.symm], rfl⟩

theorem Spares.taken {kind : WordKind} {owner : Option Tid} (hk : k ≠ key) : Spares s (s.taken m k kind owner) key := by
  refine ⟨fun i u hkey hu => ?_, fun i hi => ?_, rfl, rfl⟩
  · by_cases hi : i = m
    · subst hi; simp [Kernel.taken, hk] at hkey
    · simpa [Kernel.taken, hi] using And.intro hkey hu
  · rcases piOn_taken hi with hi | ⟨-, hi⟩
    · exact hi
    · exact absurd hi hk

theorem Spares.onRec {f : WordRecord → WordRecord} (hk : (s.wrec m).key ≠ key) (hf : ∀ x, (f x).key = x.key) :
    Spares s (s.onRec m f) key := by
  refine ⟨fun i u hkey hu => ?_, fun i hi => ?_, rfl, rfl⟩
  · by_cases hi : i = m
    · subst hi; simp [Kernel.onRec, hf, hk] at hkey
    · simpa [Kernel.onRec, hi] using And.intro hkey hu
  · by_cases hm : i = m
    · subst hm
      have := hi.2
      simp [Kernel.onRec, hf, hk] at this
    · exact ⟨by simpa [Kernel.onRec, hm] using hi.1, by simpa [Kernel.onRec, hm] using hi.2⟩

theorem Spares.block {e : WaitEdge} (hk : (s.wrec m).key ≠ key) :
    Spares s ((s.deadlineArm c d).wqBlock c (.record m) e) key := by
  have h1 : Spares s (s.onThr c fun x => { x with queue := some (.record m), edge := e }) key :=
    ⟨fun _ _ hk hu => ⟨hk, hu⟩, fun _ hm => hm, rfl, rfl⟩
  exact (h1.trans (Spares.onRec (f := fun x => { x with waiters := x.waiters ++ [c] }) hk fun _ => rfl)).trans
    (.of_core armBlock_core)

theorem Spares.freed (hw : (s.wrec m).waiters = []) : Spares s (s.freed m) key := by
  refine ⟨fun i u hkey hu => ?_, fun i hi => piOn_freed hi, rfl, rfl⟩
  by_cases hi : i = m
  · subst hi; simp [Kernel.freed, hw] at hu
  · simpa [Kernel.freed, hi] using And.intro hkey hu

theorem Spares.handedOver {r : Answer} (hk : (s.wrec m).key ≠ key) : Spares s (s.handedOver c m w r) key := by
  have h1 : Spares s (s.handed c m w r) key := by
    have hx : Spares s (s.onRec m fun x => { x with owner := some w, waiters := x.waiters.erase w }) key :=
      .onRec hk fun _ => rfl
    exact ⟨hx.waiters, hx.pi, by simp [Kernel.handed, hk.symm], rfl⟩
  unfold Kernel.handedOver
  split_ifs with hw
  · exact h1.trans (.freed (by simpa [Kernel.handed] using hw))
  · exact h1

/-! ### The operations -/

theorem Orderly.spares_lockPark {r : Option Rid} (h : Orderly s [] none) (hc : s.Runnable c) (hf : s.recordFind k = r)
    (hk : k ≠ key) : Spares s (s.lockPark c k r t d) key := by
  rcases r with _ | m
  · obtain ⟨m, heq, -, -⟩ := h.recordFor .pi (some t) hc hf (by simp) (by simp)
    unfold Kernel.lockPark
    simp only [heq]
    refine ((Spares.taken hk).trans (.of_core (raiseChain_core _ _ t))).trans (.block ?_)
    rw [core_read (fun k => (k.wrec m).key) (raiseChain_core _ _ t) fun _ => rfl]
    simpa [Kernel.taken] using hk
  · unfold Kernel.lockPark
    refine (Spares.of_core (raiseChain_core _ _ t)).trans (.block ?_)
    rw [core_read (fun k => (k.wrec m).key) (raiseChain_core _ _ t) fun _ => rfl, (recordFind_some hf).2]
    exact hk

theorem Orderly.spares_lockCommit {v : Word} {r : Option Rid} {passed : Bool} (h : Orderly s [] none) (hc : s.Runnable c)
    (hf : s.recordFind k = r) (hk : k ≠ key) : Spares s (s.lockCommit c k v r t passed d).1 key := by
  unfold Kernel.lockCommit
  split_ifs
  · exact .refl s key
  · exact .refl s key
  · exact (Spares.setWord hk).trans (h.setWord.spares_lockPark hc hf hk)
  · exact .refl s key
  · exact h.spares_lockPark hc hf hk

theorem Orderly.spares_lockAttempt (couldHold : Tid → Bool) (v : Word) (passed : Bool) (d : Option Nat) (h : Orderly s [] none)
    (hc : s.Runnable c) (hk : k ≠ key) : Spares s (s.lockAttempt c (.ok k) couldHold v passed d).1 key := by
  unfold Kernel.lockAttempt
  dsimp only
  rcases hf : s.recordFind k with _ | m
  · by_cases hself : v.value = (s.thr c).lockId
    · simp only [hself, ↓reduceIte]
      exact .refl s key
    · simp only [hself, ↓reduceIte]
      rcases (if v.value = 0 then none else s.ownerResolve v.value couldHold) with _ | t
      · dsimp only
        split_ifs
        · exact .setWord hk
        · exact .setWord hk
        · exact .refl s key
      · exact h.spares_lockCommit hc hf hk
  · by_cases hpi : (s.wrec m).kind = .pi
    · obtain ⟨o, ho⟩ := Option.ne_none_iff_exists'.mp (h.recorded.owned m hpi)
      simp only [hpi, ho, ne_eq, not_true_eq_false, ↓reduceIte]
      split_ifs
      · exact .refl s key
      · exact (Spares.setWord hk).trans (h.setWord.spares_lockCommit hc hf hk)
      · exact .refl s key
      · exact h.spares_lockCommit hc hf hk
      · exact .refl s key
    · simp only [ne_eq, hpi, not_false_eq_true, ↓reduceIte]
      exact .refl s key

theorem Orderly.spares_unlockAttempt {v : Word} (h : Orderly s [] none) (hc : s.Runnable c) (hk : k ≠ key) :
    Spares s (s.unlockAttempt c (.ok k) v).1 key := by
  unfold Kernel.unlockAttempt
  dsimp only
  rcases hf : s.recordFind k with _ | m
  · dsimp only
    split_ifs
    · exact .refl s key
    · exact .setWord hk
    · exact .refl s key
  · dsimp only
    split_ifs with hpi ho
    · exact .refl s key
    · exact .refl s key
    · rw [not_not] at hpi ho
      obtain ⟨w, hw, -, hcw⟩ := h.peek (recordFind_some hf).1 hc
      simp only [hw]
      rw [handOver_eq hpi hw hcw]
      have hm : (s.wrec m).key ≠ key := by rw [(recordFind_some hf).2]; exact hk
      exact ((Spares.handedOver hm).trans (.of_core recompute_core)).trans (.of_core wake_core)

theorem Orderly.spares_mutexOwnerExit : ∀ (n : Nat) (s : Kernel), Orderly s [] none → s.Runnable c →
    (∀ m, ¬ s.PiOn key m) → Spares s (Kernel.mutexOwnerExit c n s) key := by
  intro n
  induction n with
  | zero => exact fun s _ _ _ => .refl s key
  | succ n ih =>
    intro s h hc hpi
    rcases hheld : (s.thr c).heldList with _ | ⟨m, rest⟩
    · rw [Kernel.mutexOwnerExit, hheld]
      exact .refl s key
    · obtain ⟨w, hk, heq, h1, h2, -⟩ := h.ownerLeft hc hheld
      have hspare : Spares s ((s.handedOver c m w (.error .eownerdead)).wake w) key :=
        (Spares.handedOver fun hkey => hpi m ⟨hk, hkey⟩).trans (.of_core wake_core)
      rw [heq]
      exact hspare.trans (ih _ h1 h2 fun i hi => hpi i (hspare.pi i hi))

theorem Orderly.spares_abort {r : Answer} (h : Orderly s D none) (hb : (s.thr t).state = .blocked) (hD : t ∉ D) :
    Spares s (s.threadAbortPark t r) key := by
  have hcore : (s.threadAbortPark t r).core = (s.unwound t r).core := wake_core
  obtain ⟨-, -, -, hwords, hcount⟩ := h.abort_effect (r := r) hb hD
  refine ⟨fun m u hk hu => ?_, fun m hm => h.piOn_abort hb hD hm, by rw [hwords], hcount⟩
  rw [core_read (fun k => k.wrec m) hcore fun _ => rfl] at hk hu
  obtain ⟨h1, h2⟩ := h.unwind_rec (u := u) hb hD m
  exact ⟨(h2 hu) ▸ hk, (h1.mp hu).1⟩

theorem Orderly.spares_timerExpire (h : Orderly s [] none) (ht : t ∈ s.sleepq) : Spares s (s.timerExpire t) key := by
  obtain ⟨h1, hb⟩ := h.sleepqRemove ht
  exact (Spares.of_core sleepqRemove_core).trans (h1.spares_abort hb (by simp))

theorem Orderly.spares_threadCancelKind {kind : CancelKind} (h : Orderly s [] none) :
    Spares s (s.threadCancelKind t kind) key := by
  have h1 : Orderly (s.onThr t fun x => { x with cancelKind := kind }) [] none :=
    ⟨h.placed.onThr rfl, h.recorded.onThr rfl (.inl rfl), h.sound⟩
  have hmark : Spares s (s.onThr t fun x => { x with cancelKind := kind }) key :=
    ⟨fun _ _ hk hu => ⟨hk, hu⟩, fun _ hm => hm, rfl, rfl⟩
  unfold Kernel.threadCancelKind cancelEscalate
  dsimp only
  split_ifs
  · exact .refl s key
  · dsimp only
    split_ifs with h2
    · exact hmark
    · push Not at h2
      exact hmark.trans (h1.spares_abort h2.2 (by simp))

end Kernel
end KickOS
