import KickOS.Kernel.Abort
import KickOS.Kernel.Thread

/-! The operations on words keep the wait lists and the records in order, and fail no assertion.

Nothing here reads what the words hold: the users of a word may store anything in it. -/

namespace KickOS
namespace Kernel

variable {s s' : Kernel} {D : List Tid} {t c w o u : Tid} {m : Rid} {key : Key} {hole : Option Rid} {d : Option Nat}
    {e : WaitEdge} {b : Bool}

/-- The wait lists and the records agree with the threads; `b` is whether an assertion has failed, and none has where it
is not given. -/
structure Orderly (s : Kernel) (D : List Tid) (hole : Option Rid) (b : Bool := false) : Prop where
  placed : Placed s D
  recorded : Recorded s hole
  sound : s.faulted = b

theorem Orderly.of_core (h : Orderly s D hole b) (hc : s'.core = s.core) {D' : List Tid} (hp : Placed s' D') :
    Orderly s' D' hole b :=
  ⟨hp, h.recorded.of_core hc, (faulted_core hc).trans h.sound⟩

theorem Orderly.pickAndSeat (h : Orderly s D hole b) : Orderly s.pickAndSeat D hole b :=
  h.of_core pickAndSeat_core h.placed.pickAndSeat

theorem Orderly.reschedAfterWake (h : Orderly s D hole b) : Orderly (s.reschedAfterWake t) D hole b :=
  h.of_core reschedAfterWake_core h.placed.reschedAfterWake

theorem Orderly.wake (h : Orderly s (t :: D) hole b) (hD : t ∉ D) (he : (s.thr t).edge = .none) (hq : (s.thr t).queue = none) :
    Orderly (s.wake t) D hole b :=
  h.of_core wake_core (h.placed.wake hD he hq)

theorem Orderly.recompute (h : Orderly s D hole b) : Orderly (s.recompute t) D hole b :=
  h.of_core recompute_core h.placed.recompute

theorem Orderly.setWord (h : Orderly s D hole b) {v : Word} : Orderly (s.setWord key v) D hole b :=
  ⟨h.placed.of_eq rfl rfl rfl rfl rfl rfl, h.recorded.same rfl rfl rfl (fun _ => rfl) fun _ _ _ => rfl, h.sound⟩

theorem Recorded.onThr {f : Thread → Thread} (h : Recorded s hole) (hh : (f (s.thr t)).heldList = (s.thr t).heldList)
    (he : (f (s.thr t)).edge = (s.thr t).edge ∨ ∀ m, t ∉ (s.wrec m).waiters) : Recorded (s.onThr t f) hole := by
  refine h.same rfl rfl rfl (field_onThr Thread.heldList hh) fun m u hu => ?_
  rcases he with he | he
  · exact field_onThr Thread.edge he u
  · have hut : u ≠ t := fun e => he m (e ▸ hu)
    simp [Kernel.onThr, setThr, hut]

theorem Placed.off_records (h : Placed s D) (ht : t ∈ D) (m : Rid) : t ∉ (s.wrec m).waiters := fun hm =>
  (h.links.listed (.record m) t hm).2 ht

/-! ### Parks on a record -/

theorem Orderly.block (h : Orderly s D hole b) (hm : m ∈ s.wordActive) (hhole : hole = none ∨ hole = some m)
    (hc : s.Runnable c) (hk : (s.wrec m).kind.edge m = e) :
    Orderly ((s.deadlineArm c d).wqBlock c (.record m) e) D none b := by
  subst hk
  have hpl : ((s.wrec m).kind.edge m).place = some (Queue.record m).place := by cases (s.wrec m).kind <;> rfl
  refine ⟨h.placed.armBlock hc hpl, h.recorded.block hm hhole fun i => h.placed.links.not_listed (.record i) hc.ne_blocked, ?_⟩
  rw [faulted_core armBlock_core, onQueue_faulted]
  exact h.sound

theorem Orderly.recordFor (kind : WordKind) (owner : Option Tid) (h : Orderly s [] none b) (hc : s.Runnable c)
    (hf : s.recordFind key = none) (hkind : kind ≠ .free) (howner : kind = .pi → owner ≠ none) :
    ∃ m, s.recordTake key kind owner = (s.taken m key kind owner, m) ∧
      Orderly (s.taken m key kind owner) [] (some m) b ∧ (s.taken m key kind owner).Runnable c := by
  obtain ⟨m, hm, hk, heq⟩ := recordTake_eq key kind owner (h.recorded.exists_free h.placed hc)
  refine ⟨m, heq, ⟨h.placed.taken (h.recorded.idle m hk), h.recorded.taken hm hk hf hkind howner, h.sound⟩, hc⟩

theorem Orderly.raiseChain {p n : Nat} (h : Orderly s D hole b) : Orderly (raiseChain p n s t) D hole b :=
  h.of_core (raiseChain_core n s t) (h.placed.raiseChain n s t)

theorem Orderly.lockPark {r : Option Rid} (h : Orderly s [] none b) (hc : s.Runnable c) (hf : s.recordFind key = r)
    (hr : ∀ m, r = some m → (s.wrec m).kind = .pi) : Orderly (s.lockPark c key r t d) [] none b := by
  have hpark : ∀ {s : Kernel} {m : Rid} {hole : Option Rid}, Orderly s [] hole b → s.Runnable c → m ∈ s.wordActive →
      hole = none ∨ hole = some m → (s.wrec m).kind = .pi →
      Orderly (((Kernel.raiseChain (s.thr c).prio (s.count + 1) s t).deadlineArm c d).wqBlock c (.record m) (.mutex m)) []
        none b := by
    intro s m hole h hc hm hhole hk
    have hcore := raiseChain_core (p := (s.thr c).prio) (s.count + 1) s t
    refine (h.raiseChain).block ?_ hhole ?_ ?_
    · rwa [core_read Kernel.wordActive hcore fun _ => rfl]
    · rw [Runnable, raiseChain_thr]; exact hc
    · rw [core_read (fun k => (k.wrec m).kind) hcore fun _ => rfl, hk]; rfl
  rcases r with _ | m
  · obtain ⟨m, heq, h1, h2⟩ := h.recordFor .pi (some t) hc hf (by simp) (by simp)
    unfold Kernel.lockPark
    simp only [heq]
    exact hpark h1 h2 (by simp [Kernel.taken]) (.inr rfl) (by simp [Kernel.taken])
  · exact hpark h hc (recordFind_some hf).1 (.inl rfl) (hr m rfl)

theorem Orderly.lockCommit {v : Word} {r : Option Rid} {passed : Bool} (h : Orderly s [] none b) (hc : s.Runnable c)
    (hf : s.recordFind key = r) (hr : ∀ m, r = some m → (s.wrec m).kind = .pi) :
    Orderly (s.lockCommit c key v r t passed d).1 [] none b := by
  unfold Kernel.lockCommit
  split_ifs
  · exact h
  · exact h
  · exact h.setWord.lockPark hc hf hr
  · exact h
  · exact h.lockPark hc hf hr

theorem Orderly.lockAttempt {ref : Except Errno Key} {couldHold : Tid → Bool} {v : Word} {passed : Bool}
    (h : Orderly s [] none b) (hc : s.Runnable c) : Orderly (s.lockAttempt c ref couldHold v passed d).1 [] none b := by
  unfold Kernel.lockAttempt
  rcases ref with e | key
  · exact h
  dsimp only
  rcases hf : s.recordFind key with _ | m
  · by_cases hself : v.value = (s.thr c).lockId
    · simp only [hself, ↓reduceIte]
      exact h
    · simp only [hself, ↓reduceIte]
      rcases (if v.value = 0 then none else s.ownerResolve v.value couldHold) with _ | t
      · dsimp only
        split_ifs
        · exact h.setWord
        · exact h.setWord
        · exact h
      · exact h.lockCommit hc hf fun m hm => by cases hm
  · by_cases hk : (s.wrec m).kind = .pi
    · have hr : ∀ i, some m = some i → (s.wrec i).kind = .pi := fun i hi => by cases hi; exact hk
      obtain ⟨o, ho⟩ := Option.ne_none_iff_exists'.mp (h.recorded.owned m hk)
      simp only [hk, ho, ne_eq, not_true_eq_false, ↓reduceIte]
      split_ifs
      · exact h
      · exact h.setWord.lockCommit hc hf hr
      · exact h
      · exact h.lockCommit hc hf hr
      · exact h
    · simp only [ne_eq, hk, not_false_eq_true, ↓reduceIte]
      exact h

/-! ### Handovers -/

theorem handedOver_faulted {r : Answer} : (s.handedOver c m w r).faulted = s.faulted := by
  unfold handedOver
  split_ifs <;> rfl

theorem Orderly.peek (h : Orderly s D none b) (hm : m ∈ s.wordActive) (hc : s.Runnable c) :
    ∃ w, s.wqPeekHighest (s.wrec m).waiters = some w ∧ w ∈ (s.wrec m).waiters ∧ c ≠ w := by
  obtain ⟨w, hw⟩ := Option.ne_none_iff_exists'.mp (mt wqPeekHighest_eq_none.mp (h.recorded.waited m hm (by simp)))
  refine ⟨w, hw, wqPeekHighest_mem hw, ?_⟩
  rintro rfl
  exact h.placed.links.not_listed (.record m) hc.ne_blocked (wqPeekHighest_mem hw)

theorem Orderly.handedOver {r : Answer} (h : Orderly s D none b) (hk : (s.wrec m).kind = .pi) (ho : (s.wrec m).owner = some c)
    (hw : w ∈ (s.wrec m).waiters) (hcw : c ≠ w) : Orderly (s.handedOver c m w r) (w :: D) none b :=
  ⟨h.placed.handedOver hw hcw, h.recorded.handedOver h.placed hk ho hw hcw, handedOver_faulted.trans h.sound⟩

theorem Orderly.unlockAttempt {ref : Except Errno Key} {v : Word} (h : Orderly s [] none b) (hc : s.Runnable c) :
    Orderly (s.unlockAttempt c ref v).1 [] none b := by
  unfold Kernel.unlockAttempt
  rcases ref with e | key
  · exact h
  dsimp only
  rcases hf : s.recordFind key with _ | m
  · dsimp only
    split_ifs
    · exact h
    · exact h.setWord
    · exact h
  · dsimp only
    split_ifs with hk ho
    · exact h
    · exact h
    · rw [not_not] at hk ho
      obtain ⟨w, hw, hmem, hcw⟩ := h.peek (recordFind_some hf).1 hc
      simp only [hw]
      rw [handOver_eq hk hw hcw]
      obtain ⟨he, hq⟩ := handedOver_edge (s := s) (c := c) (m := m) (w := w) (r := .ok 0)
      refine ((h.handedOver hk ho hmem hcw).recompute).wake (by simp) ?_ ?_
      · rw [edge_core recompute_core]; exact he
      · rw [queue_core recompute_core]; exact hq

theorem Orderly.ownerLeft {rest : List Rid} (h : Orderly s [] none b) (hc : s.Runnable c)
    (hheld : (s.thr c).heldList = m :: rest) : ∃ w, (s.wrec m).kind = .pi ∧
      (∀ n, Kernel.mutexOwnerExit c (n + 1) s = Kernel.mutexOwnerExit c n ((s.handedOver c m w (.error .eownerdead)).wake w)) ∧
      Orderly ((s.handedOver c m w (.error .eownerdead)).wake w) [] none b ∧
      ((s.handedOver c m w (.error .eownerdead)).wake w).Runnable c ∧
      (((s.handedOver c m w (.error .eownerdead)).wake w).thr c).heldList = rest := by
  obtain ⟨hk, ho⟩ := (h.recorded.held c m).mp (by simp [hheld])
  obtain ⟨w, hw, hmem, hcw⟩ := h.peek ((h.recorded.active m).mpr (by simp [hk])) hc
  obtain ⟨he, hq⟩ := handedOver_edge (s := s) (c := c) (m := m) (w := w) (r := .error .eownerdead)
  have h1 := h.handedOver (r := .error .eownerdead) hk ho hmem hcw
  have hcalm := h1.placed.calm_wake (by simp) he hq
  refine ⟨w, hk, fun n => mutexOwnerExit_cons hheld hk hw hcw, h1.wake (by simp) he hq, hcalm.run c ?_, ?_⟩
  · rw [Runnable, handedOver_field Thread.state fun _ _ _ _ _ => rfl]
    exact hc
  · rw [core_read (fun k => (k.thr c).heldList) hcalm.core fun _ => rfl, handedOver_heldList hcw, hheld, List.erase_cons_head]

theorem Orderly.mutexOwnerExit : ∀ (n : Nat) (s : Kernel), Orderly s [] none b → s.Runnable c →
    (s.thr c).heldList.length ≤ n →
    Orderly (mutexOwnerExit c n s) [] none b ∧ (mutexOwnerExit c n s).Runnable c ∧
      ((mutexOwnerExit c n s).thr c).heldList = [] := by
  intro n
  induction n with
  | zero =>
    intro s h hc hl
    exact ⟨h, hc, List.length_eq_zero_iff.mp (Nat.le_zero.mp hl)⟩
  | succ n ih =>
    intro s h hc hl
    rcases hheld : (s.thr c).heldList with _ | ⟨m, rest⟩
    · rw [Kernel.mutexOwnerExit, hheld]
      exact ⟨h, hc, hheld⟩
    · obtain ⟨w, -, heq, h1, h2, h3⟩ := h.ownerLeft hc hheld
      rw [heq]
      refine ih _ h1 h2 ?_
      rw [hheld] at hl
      rw [h3]
      exact Nat.le_of_succ_le_succ hl

/-! ### Plain words -/

theorem Orderly.wordWait {ref : Except Errno Key} {v : Word} {passed : Bool} (h : Orderly s [] none b) (hc : s.Runnable c) :
    Orderly (s.wordWait c ref v passed d).1 [] none b := by
  unfold Kernel.wordWait
  rcases ref with e | key
  · exact h
  dsimp only
  rcases hf : s.recordFind key with _ | m
  · obtain ⟨m, heq, h1, h2⟩ := h.recordFor .plain none hc hf (by simp) (by simp)
    simp only [heq, Option.any_none, Bool.false_eq_true, ↓reduceIte]
    split_ifs
    · exact h
    · exact h
    · exact h1.block (by simp [Kernel.taken]) (.inr rfl) h2 (by simp [Kernel.taken, WordKind.edge])
  · dsimp only
    split_ifs with hk
    · exact h
    · exact h
    · exact h
    · have hk' : (s.wrec m).kind = .plain := by simpa using hk
      exact h.block (recordFind_some hf).1 (.inl rfl) hc (by rw [hk']; rfl)

theorem Recorded.loosen (h : Recorded s none) : Recorded s (some m) where
  active := h.active
  bound := h.bound
  nodup := h.nodup
  key_inj := h.key_inj
  idle := h.idle
  waited m hm _ := h.waited m hm (by simp)
  owned := h.owned
  held := h.held
  held_nodup := h.held_nodup
  edge_pi := h.edge_pi
  edge_plain := h.edge_plain

/-- The state with waiter `t` of record `m` popped and readied with result `r`, in front of any pass. -/
def released (s : Kernel) (m : Rid) (t : Tid) (r : Answer) : Kernel :=
  ((((s.onQueue (.record m) fun l => l.erase t).clearWaitEdge t).onThr t fun x => { x with waitResult := r }).wakeNoResched t).1

theorem wakePopped_succ (m : Rid) (n handed : Nat) (top : Option Tid) (h : Placed s D) :
    (s.wrec m).waiters = [] ∧ wakePopped m (n + 1) handed top s = (s, top) ∨
    ∃ t, s.wqPeekHighest (s.wrec m).waiters = some t ∧ wakePopped m (n + 1) handed top s =
      wakePopped m n (handed - 1) (if top.isNone then some t else top)
        (s.released m t (.ok (if handed = 0 then 0 else 1))) := by
  rcases wqPopHighest_cases (s := s) (.record m) with ⟨heq, hnil⟩ | ⟨t, hpk, hmem, heq⟩
  · refine .inl ⟨hnil, ?_⟩
    unfold wakePopped
    rw [heq]
  · refine .inr ⟨t, hpk, ?_⟩
    have hp := ((h.popped hmem).onThr (t := t)
      (f := fun x => { x with waitResult := .ok (if handed = 0 then 0 else 1) }) rfl)
    have he := (field_onThr (s := (s.onQueue (.record m) fun l => l.erase t).clearWaitEdge t) (t := t)
      (f := fun x => { x with waitResult := .ok (if handed = 0 then 0 else 1) }) Thread.edge rfl t).trans clearWaitEdge_edge
    have hq := (field_onThr (s := (s.onQueue (.record m) fun l => l.erase t).clearWaitEdge t) (t := t)
      (f := fun x => { x with waitResult := .ok (if handed = 0 then 0 else 1) }) Thread.queue rfl t).trans clearWaitEdge_queue
    have hwoken := (hp.wakeNoResched (h.listed_not_flying hmem) he hq).2
    conv_lhs => unfold wakePopped
    simp only [heq, hwoken, Bool.true_and]
    rfl

theorem Orderly.released {r : Answer} (h : Orderly s D hole b) (hhole : hole = none ∨ hole = some m)
    (ht : t ∈ (s.wrec m).waiters) : Orderly (s.released m t r) D (some m) b := by
  have hp := h.placed.popped (q := .record m) ht
  have hp' := hp.onThr (t := t) (f := fun x => { x with waitResult := r }) rfl
  have hrec : Recorded ((s.onQueue (.record m) fun l => l.erase t).clearWaitEdge t) (some m) := by
    refine (h.recorded.unlink hhole).onThr rfl (.inr fun i hi => ?_)
    exact hp.off_records (by simp) i hi
  have he := (field_onThr (s := (s.onQueue (.record m) fun l => l.erase t).clearWaitEdge t) (t := t)
    (f := fun x => { x with waitResult := r }) Thread.edge rfl t).trans clearWaitEdge_edge
  have hq := (field_onThr (s := (s.onQueue (.record m) fun l => l.erase t).clearWaitEdge t) (t := t)
    (f := fun x => { x with waitResult := r }) Thread.queue rfl t).trans clearWaitEdge_queue
  have h1 : Orderly (((s.onQueue (.record m) fun l => l.erase t).clearWaitEdge t).onThr t
      fun x => { x with waitResult := r }) (t :: D) (some m) b := ⟨hp', hrec.onThr rfl (.inl rfl), h.sound⟩
  exact h1.of_core wakeNoResched_core (hp'.wakeNoResched (h.placed.listed_not_flying (q := .record m) ht) he hq).1

theorem released_rec {r : Answer} (i : Rid) : (s.released m t r).wrec i =
    if i = m then { s.wrec m with waiters := (s.wrec m).waiters.erase t } else s.wrec i := by
  rw [released, core_read (fun k => k.wrec i) wakeNoResched_core fun _ => rfl]
  by_cases hi : i = m
  · subst hi; simp [Kernel.clearWaitEdge, Kernel.onThr, setThr, onQueue, Kernel.onRec]
  · simp [Kernel.clearWaitEdge, Kernel.onThr, setThr, onQueue, Kernel.onRec, hi]

theorem Orderly.wakePopped : ∀ (n handed : Nat) (top : Option Tid) (s : Kernel) (hole : Option Rid), Orderly s D hole b →
    hole = none ∨ hole = some m →
    Orderly (wakePopped m n handed top s).1 D (some m) b ∧ ((wakePopped m n handed top s).1.wrec m).kind = (s.wrec m).kind := by
  intro n
  induction n with
  | zero =>
    intro handed top s hole h hhole
    refine ⟨⟨h.placed, ?_, h.sound⟩, rfl⟩
    rcases hhole with rfl | rfl
    · exact h.recorded.loosen
    · exact h.recorded
  | succ n ih =>
    intro handed top s hole h hhole
    rcases wakePopped_succ m n handed top h.placed with ⟨-, heq⟩ | ⟨t, hpk, heq⟩
    · rw [heq]
      refine ⟨⟨h.placed, ?_, h.sound⟩, rfl⟩
      rcases hhole with rfl | rfl
      · exact h.recorded.loosen
      · exact h.recorded
    · rw [heq]
      have h1 := h.released (r := .ok (if handed = 0 then 0 else 1)) hhole (wqPeekHighest_mem hpk)
      obtain ⟨h2, h3⟩ := ih (handed - 1) (if top.isNone then some t else top) _ _ h1 (.inr rfl)
      refine ⟨h2, h3.trans ?_⟩
      rw [released_rec, if_pos rfl]

theorem recordFree_eq (hk : (s.wrec m).kind ≠ .pi) : s.recordFree m = s.freed m := by
  simp only [recordFree, onRec, Kernel.freed, hk, false_and, ↓reduceIte]

/-- The waiters of a record woken, the record freed with the last one, and the one pass behind them. -/
def wakeRecord (s : Kernel) (m : Rid) (woken handed : Nat) : Kernel :=
  let s' := (wakePopped m woken handed none s).1
  let s' := if (s'.wrec m).waiters = [] then s'.recordFree m else s'
  match (wakePopped m woken handed none s).2 with
  | none => s'
  | some t => s'.reschedAfterWake t

theorem wakeAttempt_none {v : Word} {n units : Nat} (hf : s.recordFind key = none) :
    s.wakeAttempt (.ok key) v n units =
      if 2 ^ 31 - 1 - v.value < units then (s, .answered (.error .eoverflow))
      else if s.words key ≠ v then (s, .retry)
      else (s.setWord key { value := v.value + units }, .answered (.ok 0)) := by
  unfold Kernel.wakeAttempt
  simp [hf]

theorem wakeAttempt_some {v : Word} {n units : Nat} (hf : s.recordFind key = some m) (hk : (s.wrec m).kind = .plain) :
    s.wakeAttempt (.ok key) v n units =
      if 2 ^ 31 - 1 - v.value < units - min (min (s.wrec m).waiters.length n) units then (s, .answered (.error .eoverflow))
      else if s.words key ≠ v then (s, .retry)
      else ((s.setWord key ⟨v.value + (units - min (min (s.wrec m).waiters.length n) units),
          min (s.wrec m).waiters.length n < (s.wrec m).waiters.length⟩).wakeRecord m
          (min (s.wrec m).waiters.length n) (min (min (s.wrec m).waiters.length n) units),
        .answered (.ok (min (s.wrec m).waiters.length n))) := by
  unfold Kernel.wakeAttempt
  simp only [hf, Option.any_some, hk, ne_eq, not_true_eq_false, decide_false, Bool.false_eq_true, ↓reduceIte,
    Option.map_some, Option.getD_some]
  rfl

theorem Orderly.wakeRecord {n handed : Nat} (h : Orderly s [] none b) (hk : (s.wrec m).kind = .plain) :
    Orderly (s.wakeRecord m n handed) [] none b := by
  obtain ⟨h1, h2⟩ := h.wakePopped (m := m) n handed none s none (.inl rfl)
  rw [hk] at h2
  have h3 : Orderly (if ((Kernel.wakePopped m n handed none s).1.wrec m).waiters = [] then
      (Kernel.wakePopped m n handed none s).1.recordFree m else (Kernel.wakePopped m n handed none s).1) [] none b := by
    split_ifs with hw
    · rw [recordFree_eq (by rw [h2]; simp)]
      exact ⟨h1.placed.freed, h1.recorded.freed (.inr rfl) hw, h1.sound⟩
    · exact ⟨h1.placed, h1.recorded.fill fun i hi => by cases hi; exact hw, h1.sound⟩
  unfold Kernel.wakeRecord
  dsimp only
  split
  · exact h3
  · exact h3.reschedAfterWake

theorem Orderly.wakeAttempt {ref : Except Errno Key} {v : Word} {n units : Nat} (h : Orderly s [] none b) :
    Orderly (s.wakeAttempt ref v n units).1 [] none b := by
  rcases ref with e | key
  · exact h
  rcases hf : s.recordFind key with _ | m
  · rw [wakeAttempt_none hf]
    split_ifs
    · exact h
    · exact h
    · exact h.setWord
  · by_cases hk : (s.wrec m).kind = .plain
    · rw [wakeAttempt_some hf hk]
      split_ifs
      · exact h
      · exact h
      · exact h.setWord.wakeRecord hk
    · have heq : s.wakeAttempt (.ok key) v n units = (s, .answered (.error .einval)) := by
        unfold Kernel.wakeAttempt
        simp [hf, hk]
      rw [heq]
      exact h

/-! ### The unwind -/

theorem Orderly.unwind (h : Orderly s D none b) (hb : (s.thr t).state = .blocked) (hD : t ∉ D) :
    Orderly (s.unwind t) (t :: D) none b := by
  obtain ⟨hp, hf⟩ := h.placed.unwind hb hD
  have hpk := h.placed.links.parked t hb hD
  refine ⟨hp, ?_, hf.trans h.sound⟩
  have hqueue : ∀ {q : Queue} {f : List Tid → List Tid}, (∀ m, q ≠ .record m) → Recorded (s.onQueue q f) none := by
    intro q f hq
    refine h.recorded.same (onQueue_count _ _) ?_ ?_ (fun u => by rw [onQueue_thr]) fun m u _ => by rw [onQueue_thr]
    · cases q with
      | record m => exact absurd rfl (hq m)
      | _ => rfl
    · cases q <;> rfl
  unfold Kernel.unwind
  split
  · rename_i e he
    obtain ⟨heq, -⟩ := h.placed.unlinkQueue (q := .send e) hb hD (by rw [he]; rfl)
    have h1 : Recorded ((s.onQueue (.send e) fun l => l.erase t).onThr t fun x => { x with callState := .none }) none :=
      (hqueue (by simp)).onThr rfl (.inl rfl)
    simp only [heq]
    split
    · exact h1
    · split_ifs
      · exact h1.of_core recompute_core
      · exact h1
  · rename_i e he
    obtain ⟨heq, -⟩ := h.placed.unlinkQueue (q := .recv e) hb hD (by rw [he]; rfl)
    simp only [heq]
    exact (hqueue (by simp)).onThr rfl (.inl rfl)
  · rename_i server he
    have hmem : t ∈ (s.thr server).replyWaiters := hpk.mem (.reply server) (by rw [he]; rfl)
    have hoff : ∀ m, t ∉ (s.wrec m).waiters := fun m hm => by
      have := (h.placed.links.listed (.record m) t hm).1
      rw [he] at this; cases this
    have h1 : Recorded (s.replyDonorUnpark server t).1 none := by
      simp only [Kernel.replyDonorUnpark, hmem, ↓reduceIte]
      exact (h.recorded.onThr rfl (.inl rfl)).onThr rfl (.inr hoff)
    have h2 : (s.replyDonorUnpark server t).2 = true := by simp [Kernel.replyDonorUnpark, hmem]
    simp only [h2, assert_true]
    exact (h1.onThr rfl (.inl rfl)).of_core recompute_core
  · rename_i m he
    obtain ⟨heq, -⟩ := h.placed.unlinkQueue (q := .record m) hb hD (by rw [he]; rfl)
    have h1 := (h.recorded.unlink (t := t) (m := m) (.inl rfl)).waiterLeft
    simp only [heq]
    split
    · exact h1
    · exact h1.of_core (lowerChain_core _ _ _)
  · rename_i m he
    obtain ⟨heq, -⟩ := h.placed.unlinkQueue (q := .record m) hb hD (by rw [he]; rfl)
    simp only [heq]
    exact (h.recorded.unlink (.inl rfl)).waiterLeft
  iterate 5 exact h.recorded
  · rename_i he
    exact absurd he hpk.edge

theorem Orderly.threadAbortPark {r : Answer} (h : Orderly s D none b) (hb : (s.thr t).state = .blocked) (hD : t ∉ D) :
    Orderly (s.threadAbortPark t r) D none b := by
  have h1 := h.unwind hb hD
  obtain ⟨hp, he, hq, hf⟩ := h.placed.unwound (r := r) hb hD
  have h2 : Orderly (s.unwound t r) (t :: D) none b := by
    refine ⟨hp, ?_, hf.trans h.sound⟩
    exact (h1.recorded.onThr rfl (.inr fun m => h1.placed.off_records (by simp) m)).onThr rfl (.inl rfl)
  rw [threadAbortPark_eq]
  exact h2.wake hD he hq

theorem Orderly.timerExpire (h : Orderly s [] none b) (ht : t ∈ s.sleepq) : Orderly (s.timerExpire t) [] none b := by
  have hst : ((s.sleepqRemove t).thr t).state = (s.thr t).state := by
    simp only [Kernel.sleepqRemove, ht, ↓reduceIte]
    exact field_onThr (f := fun x => { x with onTimer := false }) Thread.state rfl t
  refine (h.of_core sleepqRemove_core h.placed.sleepqRemove.1).threadAbortPark ?_ (by simp)
  rw [hst]
  exact h.placed.timed.blocked t ht

theorem Orderly.threadCancelKind {k : CancelKind} (h : Orderly s [] none b) : Orderly (s.threadCancelKind t k) [] none b := by
  have h1 : Orderly (s.onThr t fun x => { x with cancelKind := k }) [] none b :=
    ⟨h.placed.onThr rfl, h.recorded.onThr rfl (.inl rfl), h.sound⟩
  unfold Kernel.threadCancelKind cancelEscalate
  dsimp only
  split_ifs
  · exact h
  · dsimp only
    split_ifs with h2
    · exact h1
    · push Not at h2
      exact h1.threadAbortPark h2.2 (by simp)

theorem retire_core : (s.retire c).core = s.core := core_onThr (f := fun x => { x with state := .exited }) rfl

theorem Orderly.retire (h : Orderly s D hole b) (hc : s.Runnable c) : Orderly (s.retire c) D hole b :=
  h.of_core retire_core (h.placed.ended hc)

theorem Orderly.yield (h : Orderly s D hole b) (hc : s.Runnable c) : Orderly (s.yield c) D hole b :=
  (h.of_core rqRotate_core (h.placed.rqRotate hc)).pickAndSeat

theorem Orderly.mark (h : Orderly s D hole b) : Orderly (s.onThr c fun x => { x with dying := true }) D hole b :=
  ⟨h.placed.onThr rfl, h.recorded.onThr rfl (.inl rfl), h.sound⟩

end Kernel
end KickOS
