import KickOS.Kernel.Words

/-! Who waits on a word, and what the operations on plain words do to it. -/

namespace KickOS

def Thread.woken (x : Thread) : Answer × WaitEdge := (x.waitResult, x.edge)

namespace Kernel

variable {s s' : Kernel} {D : List Tid} {t c w o u : Tid} {m i : Rid} {key k : Key} {hole : Option Rid} {d : Option Nat}

/-- The threads parked on the word `key`. -/
def waitersOf (s : Kernel) (key : Key) : List Tid :=
  match s.recordFind key with
  | none => []
  | some m => (s.wrec m).waiters

theorem Recorded.mem_waitersOf (h : Recorded s hole) : u ∈ s.waitersOf k ↔ ∃ m, (s.wrec m).key = k ∧ u ∈ (s.wrec m).waiters := by
  have hact : ∀ m, u ∈ (s.wrec m).waiters → m ∈ s.wordActive := fun m hu => by
    refine (h.active m).mpr fun hk => ?_
    rw [h.idle m hk] at hu; cases hu
  unfold waitersOf
  rcases hf : s.recordFind k with _ | m
  · refine iff_of_false (by simp) ?_
    rintro ⟨m, hk, hu⟩
    exact recordFind_none hf m (hact m hu) hk
  · obtain ⟨hm, hk⟩ := recordFind_some hf
    constructor
    · intro hu
      exact ⟨m, hk, hu⟩
    · rintro ⟨m', hk', hu⟩
      rwa [h.key_inj m hm m' (hact m' hu) (hk.trans hk'.symm)]

theorem waitersOf_core (h : s'.core = s.core) : s'.waitersOf = s.waitersOf := core_read Kernel.waitersOf h fun _ => rfl

theorem waitResult_core (h : s'.core = s.core) (t : Tid) : (s'.thr t).waitResult = (s.thr t).waitResult :=
  core_read (fun k => (k.thr t).waitResult) h fun _ => rfl

theorem woken_core (h : s'.core = s.core) (t : Tid) : (s'.thr t).woken = (s.thr t).woken :=
  core_read (fun k => (k.thr t).woken) h fun _ => rfl

theorem words_core (h : s'.core = s.core) : s'.words = s.words := core_read Kernel.words h fun _ => rfl

theorem count_core (h : s'.core = s.core) : s'.count = s.count := core_read Kernel.count h fun _ => rfl

theorem Orderly.waiter_blocked (h : Orderly s D hole) (hu : u ∈ s.waitersOf k) : (s.thr u).state = .blocked := by
  obtain ⟨m, -, hm⟩ := h.recorded.mem_waitersOf.mp hu
  by_contra hb
  exact h.placed.links.not_listed (.record m) hb hm

theorem Orderly.runnable_unwaited (h : Orderly s D hole) (hc : s.Runnable c) : c ∉ s.waitersOf k := fun hm =>
  hc.ne_blocked (h.waiter_blocked hm)

theorem Orderly.nodup_waitersOf (h : Orderly s D hole) : (s.waitersOf k).Nodup := by
  unfold waitersOf
  rcases s.recordFind k with _ | m
  · exact List.nodup_nil
  · exact h.placed.links.nodup (.record m)

theorem mem_waitersOf_congr (h : Recorded s hole) {hole' : Option Rid} (h' : Recorded s' hole')
    (hm : ∀ m, u ∈ (s'.wrec m).waiters → u ∈ (s.wrec m).waiters ∧ (s'.wrec m).key = (s.wrec m).key)
    (hm' : ∀ m, u ∈ (s.wrec m).waiters → u ∈ (s'.wrec m).waiters ∧ (s'.wrec m).key = (s.wrec m).key) :
    u ∈ s'.waitersOf k ↔ u ∈ s.waitersOf k := by
  rw [h.mem_waitersOf, h'.mem_waitersOf]
  constructor
  · rintro ⟨m, hk, hu⟩
    obtain ⟨h1, h2⟩ := hm m hu
    exact ⟨m, h2 ▸ hk, h1⟩
  · rintro ⟨m, hk, hu⟩
    obtain ⟨h1, h2⟩ := hm' m hu
    exact ⟨m, h2.trans hk, h1⟩

theorem Orderly.mem_waitersOf_taken {kind : WordKind} {owner : Option Tid} (h : Orderly s D none)
    (h' : Orderly (s.taken m key kind owner) D (some m)) (hk : (s.wrec m).kind = .free) :
    u ∈ (s.taken m key kind owner).waitersOf k ↔ u ∈ s.waitersOf k := by
  refine mem_waitersOf_congr h.recorded h'.recorded (fun i hu => ?_) fun i hu => ?_
  · by_cases hi : i = m
    · subst hi; simp [Kernel.taken] at hu
    · simpa [Kernel.taken, hi] using hu
  · have hi : i ≠ m := by
      rintro rfl
      rw [h.recorded.idle i hk] at hu; cases hu
    simpa [Kernel.taken, hi] using hu

theorem Recorded.mem_waitersOf_freed (h : Recorded s hole) {hole' : Option Rid} (h' : Recorded (s.freed m) hole')
    (hw : (s.wrec m).waiters = []) : u ∈ (s.freed m).waitersOf k ↔ u ∈ s.waitersOf k := by
  have hx : ∀ i, u ∈ (s.wrec i).waiters → i ≠ m := by
    rintro i hu rfl
    rw [hw] at hu; cases hu
  refine mem_waitersOf_congr h h' (fun i hu => ?_) fun i hu => ?_
  · have hi : i ≠ m := by
      rintro rfl
      simp [Kernel.freed, hw] at hu
    simpa [Kernel.freed, hi] using hu
  · simpa [Kernel.freed, hx i hu] using hu

theorem Orderly.mem_waitersOf_block {e : WaitEdge} (h : Orderly s D hole)
    (h' : Orderly ((s.deadlineArm c d).wqBlock c (.record m) e) D none) :
    u ∈ ((s.deadlineArm c d).wqBlock c (.record m) e).waitersOf k ↔ u ∈ s.waitersOf k ∨ u = c ∧ k = (s.wrec m).key := by
  have hrec : ∀ i, ((s.deadlineArm c d).wqBlock c (.record m) e).wrec i =
      if i = m then { s.wrec m with waiters := (s.wrec m).waiters ++ [c] } else s.wrec i := fun i => by
    rw [core_read (fun k => k.wrec i) armBlock_core fun _ => rfl]
    by_cases hi : i = m
    · subst hi; simp [onQueue, onRec, onThr, setThr]
    · simp [onQueue, onRec, onThr, setThr, hi]
  rw [h.recorded.mem_waitersOf, h'.recorded.mem_waitersOf]
  constructor
  · rintro ⟨i, hk, hu⟩
    rw [hrec] at hk hu
    split_ifs at hk hu with hi
    · rcases List.mem_append.mp hu with hu | hu
      · exact .inl ⟨m, hk, hu⟩
      · exact .inr ⟨List.mem_singleton.mp hu, hk.symm⟩
    · exact .inl ⟨i, hk, hu⟩
  · rintro (⟨i, hk, hu⟩ | ⟨rfl, rfl⟩)
    · refine ⟨i, ?_, ?_⟩
      · rw [hrec]; split_ifs with hi
        · rw [← hk, hi]
        · exact hk
      · rw [hrec]; split_ifs with hi
        · rw [hi] at hu; simp [hu]
        · exact hu
    · exact ⟨m, by rw [hrec, if_pos rfl], by rw [hrec, if_pos rfl]; simp⟩

theorem Orderly.mem_waitersOf_released {r : Answer} (h : Orderly s D hole) (hhole : hole = none ∨ hole = some m)
    (ht : t ∈ (s.wrec m).waiters) : u ∈ (s.released m t r).waitersOf k ↔ u ∈ s.waitersOf k ∧ u ≠ t := by
  have h' := h.released (r := r) hhole ht
  rw [h.recorded.mem_waitersOf, h'.recorded.mem_waitersOf]
  have hnodup := h.placed.links.nodup (.record m)
  constructor
  · rintro ⟨i, hk, hu⟩
    rw [released_rec] at hk hu
    split_ifs at hk hu with hi
    · obtain ⟨h1, h2⟩ := hnodup.mem_erase_iff.mp hu
      exact ⟨⟨m, hk, h2⟩, h1⟩
    · refine ⟨⟨i, hk, hu⟩, ?_⟩
      rintro rfl
      have e1 := (h.placed.links.listed (.record m) u ht).1
      have e2 := (h.placed.links.listed (.record i) u hu).1
      rw [e1] at e2
      exact hi (by simpa using e2.symm)
  · rintro ⟨⟨i, hk, hu⟩, hut⟩
    refine ⟨i, ?_, ?_⟩
    · rw [released_rec]; split_ifs with hi
      · rw [← hk, hi]
      · exact hk
    · rw [released_rec]; split_ifs with hi
      · rw [hi] at hu
        exact (List.mem_erase_of_ne hut).mpr hu
      · exact hu

theorem released_waitResult {r : Answer} (u : Tid) :
    ((s.released m t r).thr u).waitResult = if u = t then r else (s.thr u).waitResult := by
  rw [released, waitResult_core wakeNoResched_core]
  by_cases hu : u = t
  · subst hu; simp [Kernel.onThr, setThr]
  · simp [Kernel.onThr, setThr, Kernel.clearWaitEdge, onQueue, Kernel.onRec, hu]

theorem released_edge {r : Answer} (u : Tid) :
    ((s.released m t r).thr u).edge = if u = t then .none else (s.thr u).edge := by
  rw [released, edge_core wakeNoResched_core]
  by_cases hu : u = t
  · subst hu; simp [Kernel.onThr, setThr, Kernel.clearWaitEdge]
  · simp [Kernel.onThr, setThr, Kernel.clearWaitEdge, onQueue, Kernel.onRec, hu]

theorem released_words {r : Answer} : (s.released m t r).words = s.words := by
  rw [released, words_core wakeNoResched_core]
  rfl

theorem released_count {r : Answer} : (s.released m t r).count = s.count := by
  rw [released, count_core wakeNoResched_core]
  rfl

theorem Orderly.waiters_le (h : Orderly s D hole) : (s.waitersOf k).length ≤ s.count := by
  have hsub : s.waitersOf k ⊆ List.range s.count := fun u hu =>
    List.mem_range.mpr (h.placed.links.bound u (h.waiter_blocked hu))
  simpa using (List.subperm_of_subset h.nodup_waitersOf hsub).length_le

/-! ### A wake -/

/-- What a wake of the threads of `W` does to the waiters and their results. -/
structure Woke (s s' : Kernel) (W : List Tid) (units : Nat) : Prop where
  nodup : W.Nodup
  waiters : ∀ u k, u ∈ s'.waitersOf k ↔ u ∈ s.waitersOf k ∧ u ∉ W
  others : ∀ u, u ∉ W → (s'.thr u).waitResult = (s.thr u).waitResult
  results : ∀ (i : Nat) (hi : i < W.length), (s'.thr (W.get ⟨i, hi⟩)).waitResult = .ok (if i < units then 1 else 0)
  edges : ∀ u, (s'.thr u).edge = if u ∈ W then .none else (s.thr u).edge
  words : s'.words = s.words
  count : s'.count = s.count

theorem Woke.more {W : List Tid} {n : Nat} (h : Woke s s' W n) (hW : ∀ u ∈ W, u ∈ s.waitersOf k) (hu : u ∈ s'.waitersOf k) :
    W.length < (s.waitersOf k).length := by
  obtain ⟨hu, huW⟩ := (h.waiters u k).mp hu
  have hsub : u :: W ⊆ s.waitersOf k := List.cons_subset.mpr ⟨hu, hW⟩
  exact (List.subperm_of_subset (List.nodup_cons.mpr ⟨huW, h.nodup⟩) hsub).length_le

theorem Woke.refl (s : Kernel) (n : Nat) : Woke s s [] n :=
  ⟨List.nodup_nil, by simp, fun _ _ => rfl, fun i hi => absurd hi (Nat.not_lt_zero i), by simp, rfl, rfl⟩

theorem Woke.trans_same {s'' : Kernel} {W : List Tid} {n : Nat} (h : Woke s s' W n)
    (hw : ∀ u k, u ∈ s''.waitersOf k ↔ u ∈ s'.waitersOf k) (hr : ∀ u, (s''.thr u).waitResult = (s'.thr u).waitResult)
    (he : ∀ u, (s''.thr u).edge = (s'.thr u).edge) (hwd : s''.words = s'.words) (hn : s''.count = s'.count) :
    Woke s s'' W n where
  nodup := h.nodup
  waiters u k := (hw u k).trans (h.waiters u k)
  others u hu := (hr u).trans (h.others u hu)
  results i hi := (hr _).trans (h.results i hi)
  edges u := (he u).trans (h.edges u)
  words := hwd.trans h.words
  count := hn.trans h.count

theorem Woke.of_core {s'' : Kernel} {W : List Tid} {n : Nat} (h : Woke s s' W n) (hc : s''.core = s'.core) :
    Woke s s'' W n :=
  h.trans_same (fun u k => by rw [waitersOf_core hc]) (fun u => waitResult_core hc u) (edge_core hc) (words_core hc)
    (count_core hc)

theorem Orderly.woke_cons {W : List Tid} {n : Nat} (h : Orderly s D hole) (hhole : hole = none ∨ hole = some m)
    (ht : t ∈ (s.wrec m).waiters) (hW : ∀ u ∈ W, ∃ k, u ∈ (s.released m t (.ok (if n = 0 then 0 else 1))).waitersOf k)
    (hwoke : Woke (s.released m t (.ok (if n = 0 then 0 else 1))) s' W (n - 1)) : Woke s s' (t :: W) n := by
  have hmem : ∀ u k, u ∈ (s.released m t (.ok (if n = 0 then 0 else 1))).waitersOf k ↔ u ∈ s.waitersOf k ∧ u ≠ t :=
    fun u k => h.mem_waitersOf_released hhole ht
  have htW : t ∉ W := fun hm => by
    obtain ⟨k, hk⟩ := hW t hm
    exact ((hmem t k).mp hk).2 rfl
  refine ⟨List.nodup_cons.mpr ⟨htW, hwoke.nodup⟩, fun u k => ?_, fun u hu => ?_, fun i hi => ?_,
    fun u => ?_, hwoke.words.trans released_words, hwoke.count.trans released_count⟩
  · rw [hwoke.waiters, hmem, List.mem_cons, not_or, and_assoc]
  · rw [List.mem_cons, not_or] at hu
    rw [hwoke.others u hu.2, released_waitResult, if_neg hu.1]
  · rcases i with _ | i
    · have h0 := hwoke.others t htW
      rw [released_waitResult, if_pos rfl] at h0
      refine h0.trans ?_
      rcases Nat.eq_zero_or_pos n with rfl | hn
      · rfl
      · simp [hn, Nat.pos_iff_ne_zero.mp hn]
    · refine (hwoke.results i (Nat.lt_of_succ_lt_succ hi)).trans ?_
      have hiff : i < n - 1 ↔ i + 1 < n := by omega
      simp only [hiff]
  · rw [hwoke.edges, released_edge]
    by_cases hu : u = t
    · simp [hu]
    · simp [hu]

theorem Orderly.woke_popped : ∀ (n handed : Nat) (top : Option Tid) (s : Kernel) (hole : Option Rid), Orderly s D hole →
    hole = none ∨ hole = some m →
    ∃ W, W.length = min (s.wrec m).waiters.length n ∧ (∀ u ∈ W, u ∈ (s.wrec m).waiters) ∧
      Woke s (Kernel.wakePopped m n handed top s).1 W handed ∧
      ((Kernel.wakePopped m n handed top s).1.wrec m).key = (s.wrec m).key := by
  intro n
  induction n with
  | zero => exact fun handed top s hole h hhole => ⟨[], by simp, by simp, .refl s handed, rfl⟩
  | succ n ih =>
    intro handed top s hole h hhole
    rcases wakePopped_succ m n handed top h.placed with ⟨hnil, heq⟩ | ⟨t, hpk, heq⟩
    · rw [heq, hnil]
      exact ⟨[], by simp, by simp, .refl s handed, rfl⟩
    · have ht := wqPeekHighest_mem hpk
      have h1 := h.released (r := .ok (if handed = 0 then 0 else 1)) hhole ht
      obtain ⟨W, hlen, hsub, hwoke, hkey⟩ := ih (handed - 1) (if top.isNone then some t else top) _ _ h1 (.inr rfl)
      rw [released_rec, if_pos rfl] at hlen hsub hkey
      rw [heq]
      refine ⟨t :: W, ?_, fun u hu => ?_, h.woke_cons hhole ht (fun u hu => ?_) hwoke, hkey⟩
      · rw [List.length_cons, hlen, List.length_erase_of_mem ht]
        have hpos := List.length_pos_of_mem ht
        omega
      · rcases List.mem_cons.mp hu with rfl | hu
        · exact ht
        · exact List.mem_of_mem_erase (hsub u hu)
      · refine ⟨(s.wrec m).key, h1.recorded.mem_waitersOf.mpr ⟨m, ?_, ?_⟩⟩
        · rw [released_rec, if_pos rfl]
        · rw [released_rec, if_pos rfl]; exact hsub u hu

theorem Orderly.woke_record (n handed : Nat) (h : Orderly s [] none) (hk : (s.wrec m).kind = .plain) :
    ∃ W, W.length = min (s.wrec m).waiters.length n ∧ (∀ u ∈ W, u ∈ (s.wrec m).waiters) ∧
      Woke s (s.wakeRecord m n handed) W handed := by
  obtain ⟨W, hlen, hsub, hwoke, -⟩ := h.woke_popped (m := m) n handed none s none (.inl rfl)
  obtain ⟨h1, h2⟩ := h.wakePopped (m := m) n handed none s none (.inl rfl)
  rw [hk] at h2
  refine ⟨W, hlen, hsub, ?_⟩
  have h3 : Woke s (if ((Kernel.wakePopped m n handed none s).1.wrec m).waiters = [] then
      (Kernel.wakePopped m n handed none s).1.recordFree m else (Kernel.wakePopped m n handed none s).1) W handed := by
    split_ifs with hw
    · rw [recordFree_eq (by rw [h2]; simp)]
      refine hwoke.trans_same (fun u k => ?_) (fun u => rfl) (fun u => rfl) rfl rfl
      exact h1.recorded.mem_waitersOf_freed (h1.recorded.freed (.inr rfl) hw) hw
    · exact hwoke
  unfold Kernel.wakeRecord
  dsimp only
  split
  · exact h3
  · exact h3.of_core reschedAfterWake_core

/-- What an attempt to wake does: nothing, or it wakes as many waiters as it may and leaves in the word what it could
not hand over. -/
theorem Orderly.wakeAttempt_cases (v : Word) (n units : Nat) (h : Orderly s [] none)
    (hplain : ∀ m, s.recordFind key = some m → (s.wrec m).kind = .plain) :
    (s.wakeAttempt (.ok key) v n units).1 = s ∧
      ((s.wakeAttempt (.ok key) v n units).2 = .answered (.error .eoverflow) ∧ 0 < units ∨
        (s.wakeAttempt (.ok key) v n units).2 = .retry) ∨
    s.words key = v ∧ ∃ W, W.length = min (s.waitersOf key).length n ∧ (∀ u ∈ W, u ∈ s.waitersOf key) ∧
      units - min W.length units ≤ 2 ^ 31 - 1 - v.value ∧
      (s.wakeAttempt (.ok key) v n units).2 = .answered (.ok W.length) ∧
      Woke (s.setWord key ⟨v.value + (units - min W.length units), W.length < (s.waitersOf key).length⟩)
        (s.wakeAttempt (.ok key) v n units).1 W (min W.length units) := by
  rcases hf : s.recordFind key with _ | m
  · rw [wakeAttempt_none hf]
    split_ifs with h1 h2
    · exact .inl ⟨rfl, .inl ⟨rfl, by omega⟩⟩
    · exact .inl ⟨rfl, .inr rfl⟩
    · refine .inr ⟨not_not.mp h2, [], ?_⟩
      have hnil : s.waitersOf key = [] := by simp [waitersOf, hf]
      rw [hnil]
      exact ⟨by simp, by simp, by simpa using h1, rfl, by simpa using Woke.refl _ _⟩
  · have hk := hplain m hf
    have hw : s.waitersOf key = (s.wrec m).waiters := by simp [waitersOf, hf]
    rw [wakeAttempt_some hf hk]
    split_ifs with h1 h2
    · exact .inl ⟨rfl, .inl ⟨rfl, by omega⟩⟩
    · exact .inl ⟨rfl, .inr rfl⟩
    · have h3 : Orderly (s.setWord key ⟨v.value + (units - min (min (s.wrec m).waiters.length n) units),
          min (s.wrec m).waiters.length n < (s.wrec m).waiters.length⟩) [] none := h.setWord
      obtain ⟨W, hlen, hsub, hwoke⟩ := h3.woke_record (m := m) (min (s.wrec m).waiters.length n)
        (min (min (s.wrec m).waiters.length n) units) hk
      have hlen' : W.length = min (s.wrec m).waiters.length n := by
        rw [hlen]
        simp [Kernel.setWord]
      refine .inr ⟨not_not.mp h2, W, ?_⟩
      rw [hw, hlen']
      exact ⟨rfl, hsub, Nat.le_of_not_lt h1, rfl, hwoke⟩

/-! ### A wait -/

/-- What a wait does: it is refused, or the caller joins the waiters of a word that holds what it expected. -/
theorem Orderly.wordWait_cases (v : Word) (passed : Bool) (d : Option Nat) (h : Orderly s [] none) (hc : s.Runnable c)
    (hplain : ∀ m, s.recordFind key = some m → (s.wrec m).kind = .plain) :
    (s.wordWait c (.ok key) v passed d).1 = s ∧
      ((s.wordWait c (.ok key) v passed d).2 = .answered (.error .eagain) ∧ s.words key ≠ v ∨
        (s.wordWait c (.ok key) v passed d).2 = .answered (.error .etimedout)) ∨
    s.words key = v ∧ (s.wordWait c (.ok key) v passed d).2 = .parked ∧
      (∀ u k, u ∈ (s.wordWait c (.ok key) v passed d).1.waitersOf k ↔ u ∈ s.waitersOf k ∨ u = c ∧ k = key) ∧
      (∀ u, ((s.wordWait c (.ok key) v passed d).1.thr u).waitResult = (s.thr u).waitResult) ∧
      (∀ u, u ≠ c → ((s.wordWait c (.ok key) v passed d).1.thr u).edge = (s.thr u).edge) ∧
      (s.wordWait c (.ok key) v passed d).1.words = s.words ∧ (s.wordWait c (.ok key) v passed d).1.count = s.count := by
  have hsame : ∀ {s : Kernel} {m : Rid} {e : WaitEdge},
      (∀ u, (((s.deadlineArm c d).wqBlock c (.record m) e).thr u).waitResult = (s.thr u).waitResult) ∧
      (∀ u, u ≠ c → (((s.deadlineArm c d).wqBlock c (.record m) e).thr u).edge = (s.thr u).edge) ∧
      ((s.deadlineArm c d).wqBlock c (.record m) e).words = s.words ∧
      ((s.deadlineArm c d).wqBlock c (.record m) e).count = s.count := by
    intro s m e
    refine ⟨fun u => ?_, fun u hu => ?_, (words_core armBlock_core).trans rfl, (count_core armBlock_core).trans rfl⟩
    · rw [waitResult_core armBlock_core, onQueue_thr]
      exact field_onThr Thread.waitResult rfl u
    · rw [edge_core armBlock_core, onQueue_thr]
      simp [onThr, setThr, hu]
  rcases hf : s.recordFind key with _ | m
  · obtain ⟨m, heq, h1, h2⟩ := h.recordFor .plain none hc hf (by simp) (by simp)
    obtain ⟨m', -, hfree, heq'⟩ := recordTake_eq key .plain none (h.recorded.exists_free h.placed hc)
    have hmm : m = m' := by
      rw [heq] at heq'
      exact (Prod.mk.inj heq').2
    subst hmm
    have h3 : Orderly (((s.taken m key .plain none).deadlineArm c d).wqBlock c (.record m) (.word m)) [] none :=
      h1.block (by simp [Kernel.taken]) (.inr rfl) h2 (by simp [Kernel.taken, WordKind.edge])
    unfold Kernel.wordWait
    simp only [hf, heq, Option.any_none, Bool.false_eq_true, ↓reduceIte]
    split_ifs with hv hp
    · exact .inl ⟨rfl, .inl ⟨rfl, hv⟩⟩
    · exact .inl ⟨rfl, .inr rfl⟩
    · obtain ⟨e1, e2, e3, e4⟩ := hsame (s := s.taken m key .plain none) (m := m) (e := .word m)
      refine .inr ⟨not_not.mp hv, rfl, fun u k => ?_, e1, e2, e3, e4⟩
      rw [h1.mem_waitersOf_block h3, h.mem_waitersOf_taken h1 hfree]
      simp [Kernel.taken]
  · have hk := hplain m hf
    obtain ⟨hm, hkey⟩ := recordFind_some hf
    have h3 : Orderly ((s.deadlineArm c d).wqBlock c (.record m) (.word m)) [] none :=
      h.block hm (.inl rfl) hc (by rw [hk]; rfl)
    unfold Kernel.wordWait
    simp only [hf, Option.any_some, hk, ne_eq, not_true_eq_false, decide_false, Bool.false_eq_true, ↓reduceIte]
    split_ifs with hv hp
    · exact .inl ⟨rfl, .inr rfl⟩
    · obtain ⟨e1, e2, e3, e4⟩ := hsame (s := s) (m := m) (e := .word m)
      refine .inr ⟨hv, rfl, fun u k => ?_, e1, e2, e3, e4⟩
      rw [h.mem_waitersOf_block h3, hkey]
    · exact .inl ⟨rfl, .inl ⟨rfl, hv⟩⟩

/-! ### A wait cut short -/

theorem wordWaiterLeft_rec (hu : u ∈ ((s.wordWaiterLeft m).wrec i).waiters) : (s.wordWaiterLeft m).wrec i = s.wrec i := by
  rw [wordWaiterLeft_eq] at hu ⊢
  split_ifs at hu ⊢ with hw
  · by_cases hi : i = m
    · subst hi; simp [freed, hw] at hu
    · simp [freed, hi]
  · rfl

theorem wordWaiterLeft_waiters : ((s.wordWaiterLeft m).wrec i).waiters = (s.wrec i).waiters := by
  rw [wordWaiterLeft_eq]
  split_ifs with hw
  · by_cases hi : i = m
    · subst hi; simp [freed]
    · simp [freed, hi]
  · rfl

theorem Orderly.unwind_frame (h : Orderly s D none) (hb : (s.thr t).state = .blocked) (hD : t ∉ D) :
    (∀ u, u ≠ t → ((s.unwind t).thr u).woken = (s.thr u).woken) ∧ (s.unwind t).words = s.words ∧
      (s.unwind t).count = s.count := by
  have hpk := h.placed.links.parked t hb hD
  have hleft : ∀ {s : Kernel} {m : Rid}, (∀ u, ((s.wordWaiterLeft m).thr u).woken = (s.thr u).woken) ∧
      (s.wordWaiterLeft m).words = s.words ∧ (s.wordWaiterLeft m).count = s.count := by
    intro s m
    rw [wordWaiterLeft_eq]
    split_ifs
    · exact ⟨fun _ => rfl, rfl, rfl⟩
    · exact ⟨fun _ => rfl, rfl, rfl⟩
  unfold Kernel.unwind
  split
  · rename_i e he
    obtain ⟨heq, -⟩ := h.placed.unlinkQueue (q := .send e) hb hD (by rw [he]; rfl)
    have h1 : ∀ u, (((s.onQueue (.send e) fun l => l.erase t).onThr t fun x => { x with callState := .none }).thr u).woken =
        (s.thr u).woken := field_onThr (s := s.onQueue (.send e) fun l => l.erase t) Thread.woken rfl
    simp only [heq]
    split
    · exact ⟨fun u _ => h1 u, rfl, rfl⟩
    · split_ifs
      · exact ⟨fun u _ => (woken_core recompute_core u).trans (h1 u), words_core recompute_core |>.trans rfl,
          count_core recompute_core |>.trans rfl⟩
      · exact ⟨fun u _ => h1 u, rfl, rfl⟩
  · rename_i e he
    obtain ⟨heq, -⟩ := h.placed.unlinkQueue (q := .recv e) hb hD (by rw [he]; rfl)
    simp only [heq]
    exact ⟨fun u _ => field_onThr (s := s.onQueue (.recv e) fun l => l.erase t) Thread.woken rfl u, rfl, rfl⟩
  · rename_i server he
    have hmem : t ∈ (s.thr server).replyWaiters := hpk.mem (.reply server) (by rw [he]; rfl)
    simp only [Kernel.replyDonorUnpark, hmem, ↓reduceIte, assert_true]
    refine ⟨fun u hu => (woken_core recompute_core u).trans ?_, words_core recompute_core |>.trans rfl,
      count_core recompute_core |>.trans rfl⟩
    have h1 := field_onThr (s := s) (t := server) (f := fun x => { x with replyWaiters := x.replyWaiters.erase t })
      Thread.woken rfl u
    simpa [Kernel.clearWaitEdge, Kernel.onThr, setThr, hu] using h1
  · rename_i m he
    obtain ⟨heq, -⟩ := h.placed.unlinkQueue (q := .record m) hb hD (by rw [he]; rfl)
    obtain ⟨h1, h2, h3⟩ := hleft (s := s.onQueue (.record m) fun l => l.erase t) (m := m)
    simp only [heq]
    split
    · exact ⟨fun u _ => h1 u, h2, h3⟩
    · exact ⟨fun u _ => (woken_core (lowerChain_core _ _ _) u).trans (h1 u), (words_core (lowerChain_core _ _ _)).trans h2,
        (count_core (lowerChain_core _ _ _)).trans h3⟩
  · rename_i m he
    obtain ⟨heq, -⟩ := h.placed.unlinkQueue (q := .record m) hb hD (by rw [he]; rfl)
    obtain ⟨h1, h2, h3⟩ := hleft (s := s.onQueue (.record m) fun l => l.erase t) (m := m)
    simp only [heq]
    exact ⟨fun u _ => h1 u, h2, h3⟩
  iterate 5 exact ⟨fun _ _ => rfl, rfl, rfl⟩
  · rename_i he
    exact absurd he hpk.edge

theorem Orderly.unwind_rec (h : Orderly s D none) (hb : (s.thr t).state = .blocked) (hD : t ∉ D) (i : Rid) :
    (u ∈ ((s.unwind t).wrec i).waiters ↔ u ∈ (s.wrec i).waiters ∧ u ≠ t) ∧
      (u ∈ ((s.unwind t).wrec i).waiters → ((s.unwind t).wrec i).key = (s.wrec i).key) := by
  have hpk := h.placed.links.parked t hb hD
  -- off a record the lists of the records are as they were, and the thread is on none
  have hoff : ∀ {s' : Kernel}, s'.wrec = s.wrec → (∀ m, (s.thr t).edge.place ≠ some (.record m)) →
      (u ∈ (s'.wrec i).waiters ↔ u ∈ (s.wrec i).waiters ∧ u ≠ t) ∧
        (u ∈ (s'.wrec i).waiters → (s'.wrec i).key = (s.wrec i).key) := by
    intro s' hrec hne
    rw [hrec]
    refine ⟨⟨fun hu => ⟨hu, ?_⟩, fun hu => hu.1⟩, fun _ => rfl⟩
    rintro rfl
    exact hne i (h.placed.links.listed (.record i) u hu).1
  -- on one it leaves the list
  have hon : ∀ {m : Rid}, (s.thr t).edge.place = some (.record m) →
      (u ∈ (((s.onQueue (.record m) fun l => l.erase t).wordWaiterLeft m).wrec i).waiters ↔ u ∈ (s.wrec i).waiters ∧ u ≠ t) ∧
      (u ∈ (((s.onQueue (.record m) fun l => l.erase t).wordWaiterLeft m).wrec i).waiters →
        (((s.onQueue (.record m) fun l => l.erase t).wordWaiterLeft m).wrec i).key = (s.wrec i).key) := by
    intro m he
    have hrec : (s.onQueue (.record m) fun l => l.erase t).wrec i =
        if i = m then { s.wrec m with waiters := (s.wrec m).waiters.erase t } else s.wrec i := by
      by_cases hi : i = m
      · subst hi; simp [onQueue, onRec]
      · simp [onQueue, onRec, hi]
    refine ⟨?_, fun hu => ?_⟩
    · rw [wordWaiterLeft_waiters, hrec]
      split_ifs with hi
      · subst hi
        rw [and_comm]
        exact (h.placed.links.nodup (.record i)).mem_erase_iff
      · refine ⟨fun hu => ⟨hu, ?_⟩, fun hu => hu.1⟩
        rintro rfl
        have := (h.placed.links.listed (.record i) u hu).1
        rw [he] at this
        exact hi (by simpa using this.symm)
    · rw [wordWaiterLeft_rec hu, hrec]
      split_ifs with hi
      · rw [hi]
      · rfl
  unfold Kernel.unwind
  split
  · rename_i e he
    obtain ⟨heq, -⟩ := h.placed.unlinkQueue (q := .send e) hb hD (by rw [he]; rfl)
    simp only [heq]
    split
    · exact hoff rfl (by rw [he]; simp [WaitEdge.place])
    · split_ifs
      · exact hoff ((core_read Kernel.wrec recompute_core fun _ => rfl).trans rfl) (by rw [he]; simp [WaitEdge.place])
      · exact hoff rfl (by rw [he]; simp [WaitEdge.place])
  · rename_i e he
    obtain ⟨heq, -⟩ := h.placed.unlinkQueue (q := .recv e) hb hD (by rw [he]; rfl)
    simp only [heq]
    exact hoff rfl (by rw [he]; simp [WaitEdge.place])
  · rename_i server he
    have hmem : t ∈ (s.thr server).replyWaiters := hpk.mem (.reply server) (by rw [he]; rfl)
    simp only [Kernel.replyDonorUnpark, hmem, ↓reduceIte, assert_true]
    exact hoff ((core_read Kernel.wrec recompute_core fun _ => rfl).trans rfl) (by rw [he]; simp [WaitEdge.place])
  · rename_i m he
    obtain ⟨heq, -⟩ := h.placed.unlinkQueue (q := .record m) hb hD (by rw [he]; rfl)
    simp only [heq]
    split
    · exact hon (by rw [he]; rfl)
    · rw [core_read (fun k => k.wrec i) (lowerChain_core _ _ _) fun _ => rfl]
      exact hon (by rw [he]; rfl)
  · rename_i m he
    obtain ⟨heq, -⟩ := h.placed.unlinkQueue (q := .record m) hb hD (by rw [he]; rfl)
    simp only [heq]
    exact hon (by rw [he]; rfl)
  iterate 5
    rename_i he
    exact hoff rfl (by rw [he]; simp [WaitEdge.place])
  · rename_i he
    exact absurd he hpk.edge

theorem Orderly.abort_effect {r : Answer} (h : Orderly s D none) (hb : (s.thr t).state = .blocked) (hD : t ∉ D) :
    (∀ u k, u ∈ (s.threadAbortPark t r).waitersOf k ↔ u ∈ s.waitersOf k ∧ u ≠ t) ∧
    (∀ u, ((s.threadAbortPark t r).thr u).waitResult = if u = t then r else (s.thr u).waitResult) ∧
    (∀ u, ((s.threadAbortPark t r).thr u).edge = if u = t then .none else (s.thr u).edge) ∧
    (s.threadAbortPark t r).words = s.words ∧ (s.threadAbortPark t r).count = s.count := by
  obtain ⟨h1, h2, h3⟩ := h.unwind_frame hb hD
  have h' := h.threadAbortPark (r := r) hb hD
  have hcore : (s.threadAbortPark t r).core = (s.unwound t r).core := wake_core
  refine ⟨fun u k => ?_, fun u => ?_, fun u => ?_, (words_core hcore).trans h2, (count_core hcore).trans h3⟩
  · rw [h'.recorded.mem_waitersOf, h.recorded.mem_waitersOf]
    have hrec : ∀ i, (s.threadAbortPark t r).wrec i = (s.unwind t).wrec i := fun i => by
      rw [core_read (fun k => k.wrec i) hcore fun _ => rfl]
      rfl
    constructor
    · rintro ⟨i, hk, hu⟩
      rw [hrec] at hk hu
      obtain ⟨h4, h5⟩ := h.unwind_rec (u := u) hb hD i
      exact ⟨⟨i, (h5 hu) ▸ hk, (h4.mp hu).1⟩, (h4.mp hu).2⟩
    · rintro ⟨⟨i, hk, hu⟩, hut⟩
      obtain ⟨h4, h5⟩ := h.unwind_rec (u := u) hb hD i
      have hu' := h4.mpr ⟨hu, hut⟩
      exact ⟨i, by rw [hrec, h5 hu', hk], by rw [hrec]; exact hu'⟩
  · rw [waitResult_core hcore]
    by_cases hu : u = t
    · subst hu; simp [Kernel.unwound, onThr, setThr]
    · have h4 : ((s.unwind t).thr u).waitResult = (s.thr u).waitResult := congrArg Prod.fst (h1 u hu)
      simp [Kernel.unwound, Kernel.clearWaitEdge, onThr, setThr, hu, h4]
  · rw [edge_core hcore]
    by_cases hu : u = t
    · subst hu; simp [Kernel.unwound, Kernel.clearWaitEdge, onThr, setThr]
    · have h4 : ((s.unwind t).thr u).edge = (s.thr u).edge := congrArg Prod.snd (h1 u hu)
      simp [Kernel.unwound, Kernel.clearWaitEdge, onThr, setThr, hu, h4]

/-- A thread whose deadline has come is off the timer's queue and still parked. -/
theorem Orderly.sleepqRemove (h : Orderly s [] none) (ht : t ∈ s.sleepq) :
    Orderly (s.sleepqRemove t) [] none ∧ ((s.sleepqRemove t).thr t).state = .blocked := by
  have hst : ((s.sleepqRemove t).thr t).state = (s.thr t).state := by
    simp only [Kernel.sleepqRemove, ht, ↓reduceIte]
    exact field_onThr (f := fun x => { x with onTimer := false }) Thread.state rfl t
  exact ⟨h.of_core sleepqRemove_core (h.placed.sleepqRemove (t := t)).1, hst.trans (h.placed.timed.blocked t ht)⟩

theorem Orderly.timerExpire_effect (h : Orderly s [] none) (ht : t ∈ s.sleepq) :
    (∀ u k, u ∈ (s.timerExpire t).waitersOf k ↔ u ∈ s.waitersOf k ∧ u ≠ t) ∧
    (∀ u, ((s.timerExpire t).thr u).waitResult = if u = t then .error .etimedout else (s.thr u).waitResult) ∧
    (∀ u, ((s.timerExpire t).thr u).edge = if u = t then .none else (s.thr u).edge) ∧
    (s.timerExpire t).words = s.words ∧ (s.timerExpire t).count = s.count := by
  obtain ⟨h1, hb⟩ := h.sleepqRemove ht
  obtain ⟨h2, h3, he, h4, h5⟩ := h1.abort_effect (t := t) (r := .error .etimedout) hb (by simp)
  refine ⟨fun u k => ?_, fun u => ?_, fun u => ?_, h4.trans (words_core sleepqRemove_core),
    h5.trans (count_core sleepqRemove_core)⟩
  · rw [← waitersOf_core (sleepqRemove_core (s := s) (t := t))]
    exact h2 u k
  · rw [← waitResult_core (sleepqRemove_core (s := s) (t := t)) u]
    exact h3 u
  · rw [← edge_core (sleepqRemove_core (s := s) (t := t)) u]
    exact he u

/-! ### The kind of a word's record -/

/-- Record `m` is that of a mutex in the word `key`. -/
def PiOn (s : Kernel) (key : Key) (m : Rid) : Prop := (s.wrec m).kind = .pi ∧ (s.wrec m).key = key

theorem Orderly.plain_of_find (h : Orderly s D none) (hp : ∀ m, ¬ s.PiOn key m) :
    ∀ m, s.recordFind key = some m → (s.wrec m).kind = .plain := by
  intro m hf
  obtain ⟨hm, hk⟩ := recordFind_some hf
  have hfree := (h.recorded.active m).mp hm
  rcases hkind : (s.wrec m).kind with _ | _ | _
  · exact absurd hkind hfree
  · exact absurd ⟨hkind, hk⟩ (hp m)
  · rfl

theorem piOn_core (h : s'.core = s.core) : s'.PiOn key m ↔ s.PiOn key m := by
  simp only [PiOn, core_read (fun k => k.wrec m) h fun _ => rfl]

theorem piOn_freed (h : (s.freed i).PiOn key m) : s.PiOn key m := by
  obtain ⟨hk, hkey⟩ := h
  by_cases hm : m = i
  · subst hm; simp [freed] at hk
  · exact ⟨by simpa [freed, hm] using hk, by simpa [freed, hm] using hkey⟩

theorem piOn_taken {kind : WordKind} {owner : Option Tid} (h : (s.taken i k kind owner).PiOn key m) :
    s.PiOn key m ∨ kind = .pi ∧ k = key := by
  obtain ⟨hk, hkey⟩ := h
  by_cases hm : m = i
  · subst hm
    exact .inr ⟨by simpa [Kernel.taken] using hk, by simpa [Kernel.taken] using hkey⟩
  · exact .inl ⟨by simpa [Kernel.taken, hm] using hk, by simpa [Kernel.taken, hm] using hkey⟩

theorem piOn_onQueue {q : Queue} {f : List Tid → List Tid} (h : (s.onQueue q f).PiOn key m) : s.PiOn key m := by
  obtain ⟨hk, hkey⟩ := h
  cases q with
  | record i =>
    by_cases hm : m = i
    · subst hm; exact ⟨by simpa [onQueue, onRec] using hk, by simpa [onQueue, onRec] using hkey⟩
    · exact ⟨by simpa [onQueue, onRec, hm] using hk, by simpa [onQueue, onRec, hm] using hkey⟩
  | _ => exact ⟨hk, hkey⟩

theorem piOn_block {e : WaitEdge} (h : ((s.deadlineArm c d).wqBlock c (.record i) e).PiOn key m) : s.PiOn key m := by
  rw [piOn_core armBlock_core] at h
  have h' : (s.onThr c fun x => { x with queue := some (.record i), edge := e }).PiOn key m := piOn_onQueue h
  exact h'

theorem piOn_waiterLeft (h : (s.wordWaiterLeft i).PiOn key m) : s.PiOn key m := by
  rw [wordWaiterLeft_eq] at h
  split_ifs at h
  · exact piOn_freed h
  · exact h

theorem piOn_released {r : Answer} (h : (s.released i t r).PiOn key m) : s.PiOn key m := by
  obtain ⟨hk, hkey⟩ := h
  rw [released_rec] at hk hkey
  split_ifs at hk hkey with hm
  · subst hm; exact ⟨hk, hkey⟩
  · exact ⟨hk, hkey⟩

theorem piOn_popped : ∀ (n handed : Nat) (top : Option Tid) (s : Kernel), Orderly s D hole → hole = none ∨ hole = some i →
    (wakePopped i n handed top s).1.PiOn key m → s.PiOn key m := by
  intro n
  induction n generalizing hole with
  | zero => exact fun _ _ _ _ _ h => h
  | succ n ih =>
    intro handed top s h hhole hp
    rcases wakePopped_succ i n handed top h.placed with ⟨-, heq⟩ | ⟨t, hpk, heq⟩
    · rwa [heq] at hp
    · rw [heq] at hp
      exact piOn_released (ih _ _ _ (h.released hhole (wqPeekHighest_mem hpk)) (.inr rfl) hp)

theorem Orderly.piOn_wakeRecord {n handed : Nat} (h : Orderly s [] none) (hk : (s.wrec i).kind = .plain)
    (hp : (s.wakeRecord i n handed).PiOn key m) : s.PiOn key m := by
  obtain ⟨-, hk'⟩ := h.wakePopped (m := i) n handed none s none (.inl rfl)
  rw [hk] at hk'
  refine piOn_popped (i := i) n handed none s h (.inl rfl) ?_
  have h1 : (if ((Kernel.wakePopped i n handed none s).1.wrec i).waiters = [] then
      (Kernel.wakePopped i n handed none s).1.recordFree i else (Kernel.wakePopped i n handed none s).1).PiOn key m := by
    unfold Kernel.wakeRecord at hp
    dsimp only at hp
    split at hp
    · exact hp
    · rwa [piOn_core reschedAfterWake_core] at hp
  rw [recordFree_eq (by rw [hk']; simp)] at h1
  split_ifs at h1
  · exact piOn_freed h1
  · exact h1

theorem Orderly.piOn_wakeAttempt {ref : Except Errno Key} {v : Word} {n units : Nat} (h : Orderly s [] none)
    (hp : (s.wakeAttempt ref v n units).1.PiOn key m) : s.PiOn key m := by
  rcases ref with e | k
  · exact hp
  rcases hf : s.recordFind k with _ | i
  · rw [wakeAttempt_none hf] at hp
    split_ifs at hp <;> exact hp
  · by_cases hk : (s.wrec i).kind = .plain
    · rw [wakeAttempt_some hf hk] at hp
      split_ifs at hp
      · exact hp
      · exact hp
      · exact h.setWord.piOn_wakeRecord hk hp
    · have heq : s.wakeAttempt (.ok k) v n units = (s, .answered (.error .einval)) := by
        unfold Kernel.wakeAttempt
        simp [hf, hk]
      rwa [heq] at hp

theorem Orderly.piOn_wordWait {ref : Except Errno Key} {v : Word} {passed : Bool} (h : Orderly s [] none)
    (hc : s.Runnable c) (hp : (s.wordWait c ref v passed d).1.PiOn key m) : s.PiOn key m := by
  unfold Kernel.wordWait at hp
  rcases ref with e | k
  · exact hp
  dsimp only at hp
  rcases hf : s.recordFind k with _ | i
  · obtain ⟨i, heq, -, -⟩ := h.recordFor .plain none hc hf (by simp) (by simp)
    simp only [hf, heq, Option.any_none, Bool.false_eq_true, ↓reduceIte] at hp
    split_ifs at hp
    · exact hp
    · exact hp
    · rcases piOn_taken (piOn_block hp) with hp | ⟨hp, -⟩
      · exact hp
      · cases hp
  · rw [hf] at hp
    dsimp only at hp
    split_ifs at hp
    · exact hp
    · exact hp
    · exact hp
    · exact piOn_block hp

theorem Orderly.piOn_unwind (h : Orderly s D none) (hb : (s.thr t).state = .blocked) (hD : t ∉ D)
    (hp : (s.unwind t).PiOn key m) : s.PiOn key m := by
  have hpk := h.placed.links.parked t hb hD
  unfold Kernel.unwind at hp
  split at hp
  · rename_i e he
    obtain ⟨heq, -⟩ := h.placed.unlinkQueue (q := .send e) hb hD (by rw [he]; rfl)
    simp only [heq] at hp
    split at hp
    · exact hp
    · split_ifs at hp
      · rw [piOn_core recompute_core] at hp
        exact hp
      · exact hp
  · rename_i e he
    obtain ⟨heq, -⟩ := h.placed.unlinkQueue (q := .recv e) hb hD (by rw [he]; rfl)
    simp only [heq] at hp
    exact hp
  · rename_i server he
    have hmem : t ∈ (s.thr server).replyWaiters := hpk.mem (.reply server) (by rw [he]; rfl)
    simp only [Kernel.replyDonorUnpark, hmem, ↓reduceIte, assert_true] at hp
    rw [piOn_core recompute_core] at hp
    exact hp
  · rename_i i he
    obtain ⟨heq, -⟩ := h.placed.unlinkQueue (q := .record i) hb hD (by rw [he]; rfl)
    simp only [heq] at hp
    split at hp
    · exact piOn_onQueue (piOn_waiterLeft hp)
    · rw [piOn_core (lowerChain_core _ _ _)] at hp
      exact piOn_onQueue (piOn_waiterLeft hp)
  · rename_i i he
    obtain ⟨heq, -⟩ := h.placed.unlinkQueue (q := .record i) hb hD (by rw [he]; rfl)
    simp only [heq] at hp
    exact piOn_onQueue (piOn_waiterLeft hp)
  iterate 5 exact hp
  · rename_i he
    exact absurd he hpk.edge

theorem Orderly.piOn_abort {r : Answer} (h : Orderly s D none) (hb : (s.thr t).state = .blocked) (hD : t ∉ D)
    (hp : (s.threadAbortPark t r).PiOn key m) : s.PiOn key m := by
  rw [threadAbortPark_eq, piOn_core wake_core] at hp
  exact h.piOn_unwind hb hD hp

theorem Orderly.piOn_timerExpire (h : Orderly s [] none) (ht : t ∈ s.sleepq) (hp : (s.timerExpire t).PiOn key m) :
    s.PiOn key m := by
  obtain ⟨h1, hb⟩ := h.sleepqRemove ht
  have h2 := h1.piOn_abort (t := t) hb (by simp) hp
  rwa [piOn_core sleepqRemove_core] at h2

end Kernel
end KickOS
