import KickOS.Mutex.Run

/-! Priority inheritance and the refusal of deadlocks, in every state of every run. -/

namespace KickOS
namespace Mutex
open Kernel Lib.Chain Lib.Donation Relation
open Function (update)

variable {s : Kernel} {t c u : Tid} {x : Sys} {couldHold : Key → Tid → Bool}

/-- The priorities a thread is owed: its own, and those of the threads parked on what it holds. -/
def shares (s : Kernel) (t : Tid) : Set Nat :=
  {n | n = (s.thr t).basePrio ∨
    ∃ m u, (s.wrec m).kind = .pi ∧ (s.wrec m).owner = some t ∧ u ∈ (s.wrec m).waiters ∧ n = (s.thr u).prio}

theorem Inv.donor_shares (h : Inv s) {n : Nat} : (∀ i ∈ shares s t, i ≤ n) ↔ s.effectivePrio t ≤ n := by
  rw [effectivePrio_le_iff]
  constructor
  · intro hn
    refine ⟨hn _ (.inl rfl), fun u hu => ?_⟩
    rcases hu with ⟨m, hm, hu⟩ | ⟨hu, -⟩ | ⟨e, he, -⟩
    · obtain ⟨hk, ho⟩ := (h.tidy.recorded.held t m).mp hm
      exact hn _ (.inr ⟨m, u, hk, ho, hu, rfl⟩)
    · rw [(h.tidy.quiet t).1] at hu; cases hu
    · rw [(h.tidy.quiet t).2] at he; cases he
  · rintro ⟨hb, hd⟩ i (rfl | ⟨m, u, hk, ho, hu, rfl⟩)
    · exact hb
    · exact hd u (.inl ⟨m, (h.tidy.recorded.held t m).mpr ⟨hk, ho⟩, hu⟩)

theorem Inv.greatest (h : Inv s) (hd : (s.thr t).dying = false) : IsGreatest (shares s t) (s.thr t).prio := by
  have hle : ∀ n, (∀ i ∈ shares s t, i ≤ n) ↔ (s.thr t).prio ≤ n := fun n => by
    rw [h.donor_shares, h.exact t hd]
  have hub := (hle _).mpr le_rfl
  refine ⟨?_, hub⟩
  by_contra hn
  -- were it none of them, one less would do
  have hlt : ∀ i ∈ shares s t, i < (s.thr t).prio := fun i hi => lt_of_le_of_ne (hub i hi) fun e => hn (e ▸ hi)
  have hpos := hlt _ (.inl rfl)
  have := (hle ((s.thr t).prio - 1)).mp fun i hi => Nat.le_sub_one_of_lt (hlt i hi)
  omega

theorem Inv.reach_prio (h : Inv s) (hr : Reach s.holder t u) (hu : (s.thr u).dying = false) :
    (s.thr t).prio ≤ (s.thr u).prio := by
  induction hr using ReflTransGen.head_induction_on with
  | refl => exact le_rfl
  | @head a b hab hbu ih =>
    refine le_trans ?_ ih
    have hb : (s.thr b).dying = false := by
      rcases reach_iff.mp hbu with rfl | ⟨d, hbd, -⟩
      · exact hu
      · -- a link of the chain is parked, and the dying are not
        obtain ⟨m, he, -⟩ := holder_some hbd
        by_contra hd
        have hst := h.dying b (by simpa using hd)
        rw [(h.placed.links.at_rest b hst).1] at he
        cases he
    rw [h.exact b hb]
    refine (effectivePrio_le_iff.mp le_rfl).2 a ((h.tidy.donor_iff h.placed).mpr ⟨hab, by simp⟩)

/-- Every thread that lives has the highest of its base priority and of the priorities of the threads parked on the
mutexes it holds, and what a waiter gives reaches the end of its chain. -/
theorem inheritance_exact (h : Reachable couldHold x) (t : Tid) (hd : (x.k.thr t).dying = false) :
    (x.k.thr t).prio = x.k.effectivePrio t ∧ IsGreatest (shares x.k t) (x.k.thr t).prio ∧
      ∀ u, Reach x.k.holder u t → (x.k.thr u).prio ≤ (x.k.thr t).prio :=
  ⟨h.sound.inv.exact t hd, h.sound.inv.greatest hd, fun _ hu => h.sound.inv.reach_prio hu hd⟩

/-- The low holder runs at the priority of the high waiter. -/
theorem inheritance_exact_contended : (contended.k.thr 0).basePrio = 1 ∧ (contended.k.thr 0).prio = 2 ∧
    IsGreatest (shares contended.k 0) 2 :=
  ⟨by decide, by decide, (inheritance_exact contended_reachable 0 (by decide)).2.1⟩

/-! ### Deadlocks -/

/-- `lockPark` with the walk cut at `depth` holders. -/
def lockParkWithin (s : Kernel) (depth : Nat) (c : Tid) (key : Key) (m : Option Rid) (t : Tid) (deadline : Option Nat) :
    Kernel :=
  let (s, m) := match m with
    | some m => (s, m)
    | none => s.recordTake key .pi (some t)
  let s := raiseChain (s.thr c).prio depth s t
  let s := s.deadlineArm c deadline
  s.wqBlock c (.record m) (.mutex m)

theorem Inv.lockParkWithin_eq {key : Key} {r : Option Rid} {d : Option Nat} {n : Nat} (h : Inv s) (hc : s.Runnable c)
    (hn : s.count < n) : lockParkWithin s n c key r t d = s.lockPark c key r t d := by
  have hrank : rank s.holder (Finset.range s.count) t < s.count + 1 := rank_lt_count
  cases r with
  | some m =>
    unfold lockParkWithin Kernel.lockPark
    dsimp only
    rw [h.placed.raiseChain_fuel h.tidy.acyclic n (s.count + 1) s t rfl (by omega) hrank]
  | none =>
    obtain ⟨m, hm, hk, heq⟩ := recordTake_eq key .pi (some t)
      (h.tidy.recorded.exists_free h.placed hc)
    unfold lockParkWithin Kernel.lockPark
    simp only [heq]
    rw [h.placed.raiseChain_fuel h.tidy.acyclic n (s.count + 1) _ t (holder_taken h.tidy h.placed hk) (by omega) hrank]
    rfl

theorem Inv.lockPark_holder {key : Key} {r : Option Rid} {d : Option Nat} (h : Inv s) (hc : s.Runnable c)
    (hsome : ∀ m, r = some m → (s.wrec m).kind = .pi ∧ (s.wrec m).owner = some t) :
    (s.lockPark c key r t d).holder = update s.holder c (some t) := by
  have hlink : ∀ {s' : Kernel} {m : Rid}, s'.holder = s.holder → (s'.wrec m).kind = .pi → (s'.wrec m).owner = some t →
      (((raiseChain (s'.thr c).prio (s'.count + 1) s' t).deadlineArm c d).wqBlock c (.record m) (.mutex m)).holder =
        update s.holder c (some t) := by
    intro s' m hh hk ho
    have hcore := raiseChain_core (p := (s'.thr c).prio) (s'.count + 1) s' t
    rw [holder_armBlock (by rwa [core_read (fun k => (k.wrec m).kind) hcore fun _ => rfl]), holder_core hcore, hh,
      core_read (fun k => (k.wrec m).owner) hcore fun _ => rfl, ho]
  cases r with
  | some m => exact hlink rfl (hsome m rfl).1 (hsome m rfl).2
  | none =>
    obtain ⟨m, hm, hk, heq⟩ := recordTake_eq key .pi (some t)
      (h.tidy.recorded.exists_free h.placed hc)
    unfold Kernel.lockPark
    simp only [heq]
    exact hlink (holder_taken h.tidy h.placed hk) (by simp [Kernel.taken]) (by simp [Kernel.taken])

/-- No chain of holders closes. An attempt that finds a holder and is not out of time is refused exactly when parking
behind that holder would close a chain through the caller, and then changes nothing; else it parks there, or starts over
behind a word that moved. A deeper bound of either walk would change nothing. -/
theorem deadlock_refused (h : Reachable couldHold x) : Acyclic x.k.holder ∧
    ∀ c k v d, x.loaded = some (c, k, v) →
      (target x.k c k v (couldHold k) = none →
        (x.k.lockAttempt c (.ok k) (couldHold k) v false d).2 ≠ .answered (.error .edeadlk)) ∧
      ∀ t, target x.k c k v (couldHold k) = some t →
        ((x.k.lockAttempt c (.ok k) (couldHold k) v false d).2 = .answered (.error .edeadlk) ↔
          TransGen (Lib.Chain.Step (update x.k.holder c (some t))) c c) ∧
        ((x.k.lockAttempt c (.ok k) (couldHold k) v false d).2 = .answered (.error .edeadlk) →
          (x.k.lockAttempt c (.ok k) (couldHold k) v false d).1 = x.k) ∧
        ((x.k.lockAttempt c (.ok k) (couldHold k) v false d).2 ≠ .answered (.error .edeadlk) →
          if x.k.words k = v then
            (x.k.lockAttempt c (.ok k) (couldHold k) v false d).2 = .parked ∧
            (x.k.lockAttempt c (.ok k) (couldHold k) v false d).1.holder = update x.k.holder c (some t)
          else x.k.lockAttempt c (.ok k) (couldHold k) v false d = (x.k, .retry)) ∧
        ∀ n, x.k.count < n → x.k.chainMeets c n t = x.k.chainMeets c (x.k.count + 1) t ∧
          (x.k.words k = v → lockParkWithin (x.k.setWord k { v with waiters := true }) n c k (x.k.recordFind k) t d =
            (x.k.setWord k { v with waiters := true }).lockPark c k (x.k.recordFind k) t d) := by
  have hi := h.sound.inv
  refine ⟨hi.tidy.acyclic, fun c k v d hl => ?_⟩
  obtain ⟨hf, hc, -⟩ := h.sound.loaded c k v hl
  have heq : x.k.lockAttempt c (.ok k) (couldHold k) v false d = _ := hi.lockAttempt_eq hf
  refine ⟨fun ht => ?_, fun t ht => ?_⟩
  · rw [heq, ht]
    dsimp only
    split_ifs <;> simp
  rw [ht] at heq
  simp only [Bool.false_eq_true, ↓reduceIte] at heq
  have hmeets := hi.placed.chainMeets_iff hi.tidy.acyclic c (x.k.count + 1) t rank_lt_count
  have hdeep : ∀ n, x.k.count < n → x.k.chainMeets c n t = x.k.chainMeets c (x.k.count + 1) t := fun n hn => by
    have hrank : rank x.k.holder (Finset.range x.k.count) t < x.k.count + 1 := rank_lt_count
    rw [Bool.eq_iff_iff, hmeets]
    exact hi.placed.chainMeets_iff hi.tidy.acyclic c n t (by omega)
  have hself : t = c → Reach x.k.holder t c := fun e => by rw [e]; exact .refl c
  -- the word with the bit set is a word of the protocol: it changes only where there is no record
  have hset : x.k.words k = v → Inv (x.k.setWord k { v with waiters := true }) := fun hw => by
    cases hr : x.k.recordFind k with
    | none => exact hi.setWord hr _
    | some m =>
      obtain ⟨hm, hkey⟩ := recordFind_some hr
      obtain ⟨-, o, ho⟩ := hi.active_pi hm
      have := hi.tidy.words m hm o ho
      rw [hkey, hw] at this
      rw [setWord_self (by rw [hw, this])]
      exact hi
  have hsome : ∀ m, x.k.recordFind k = some m → (x.k.wrec m).kind = .pi ∧ (x.k.wrec m).owner = some t := fun m hm => by
    refine ⟨(hi.active_pi (recordFind_some hm).1).1, ?_⟩
    simpa [target, hm] using ht
  rw [heq, hi.tidy.acyclic.closes_iff]
  refine ⟨?_, fun _ => ?_, fun hne => ?_, fun n hn => ⟨hdeep n hn, fun hw => (hset hw).lockParkWithin_eq hc hn⟩⟩
  · rw [← hmeets]
    split_ifs with h1 h2 h3
    · exact iff_of_true rfl (hmeets.mpr (hself h1))
    · exact iff_of_true rfl h2
    · exact iff_of_false (by simp) h2
    · exact iff_of_false (by simp) h2
  · split_ifs at * <;> simp_all
  · have h1 : t ≠ c := fun e => hne (by simp [e])
    have h2 : ¬ x.k.chainMeets c (x.k.count + 1) t = true := fun e => hne (by simp [e])
    simp only [if_neg h1, if_neg h2]
    by_cases h3 : x.k.words k = v
    · simp only [if_pos h3]
      exact ⟨trivial, (hset h3).lockPark_holder hc hsome⟩
    · simp only [if_neg h3]

/-- Each thread has taken one mutex, the high one has parked for the other, and the low one is about to. -/
def crossed : Sys :=
  let x : Sys := { k := pair }
  let x : Sys := { x with
    k := (x.k.kosMutexLock 0 7).1
    holds := fun u j => x.holds u j ∨ (u = 0 ∧ j = 7 ∧ (x.k.kosMutexLock 0 7).2 = some (.ok 0)) }
  let x : Sys := { x with
    k := (x.k.kosMutexLock 1 8).1
    holds := fun u j => x.holds u j ∨ (u = 1 ∧ j = 8 ∧ (x.k.kosMutexLock 1 8).2 = some (.ok 0)) }
  let x : Sys := x.after x.k.reschedule (fun _ _ => False) fun _ _ => False
  let x : Sys := { x with loaded := some (1, 7, x.k.words 7) }
  let x : Sys := x.after (x.k.lockAttempt 1 (.ok 7) (fun _ => true) (x.k.words 7) false none).1
    (fun u j => u = 1 ∧ j = 7 ∧ ∃ r, took r ∧
      (x.k.lockAttempt 1 (.ok 7) (fun _ => true) (x.k.words 7) false none).2 = .answered r) fun _ _ => False
  { x with loaded := some (0, 8, x.k.words 8) }

theorem crossed_reachable : Reachable (fun _ _ => true) crossed := by
  have h0 : Reachable (fun _ _ => true) { k := pair } := .boot pair pair_boot
  have h1 := Reachable.step _ _ h0 (.userLock _ 0 7 ⟨.inl rfl, rfl, fun _ _ _ hl => by cases hl⟩)
  have h2 := Reachable.step _ _ h1 (.userLock _ 1 8 ⟨.inl rfl, rfl, fun _ _ _ hl => by cases hl⟩)
  have h3 := Reachable.step _ _ h2 (.pass _ rfl)
  have h4 := Reachable.step _ _ h3 (.load _ 1 7 rfl ⟨by decide, by decide⟩ (by decide))
  have h5 := Reachable.step _ _ h4 (.lock _ 1 7 _ false none rfl (by decide))
  exact .step _ _ h5 (.load _ 0 8 rfl ⟨by decide, by decide⟩ (by decide))

/-- The second of two crossed attempts is refused. -/
theorem deadlock_refused_crossed : crossed.k.holder 1 = some 0 ∧
    (crossed.k.lockAttempt 0 (.ok 8) (fun _ => true) (crossed.k.words 8) false none).2 = .answered (.error .edeadlk) ∧
    (crossed.k.lockAttempt 0 (.ok 8) (fun _ => true) (crossed.k.words 8) false none).1 = crossed.k := by
  obtain ⟨-, h⟩ := deadlock_refused crossed_reachable
  obtain ⟨h1, h2, -, -⟩ := (h 0 8 _ none rfl).2 1 (by decide)
  have hcycle : TransGen (Lib.Chain.Step (update crossed.k.holder 0 (some 1))) 0 0 :=
    .tail (.single (b := 1) rfl) (show update crossed.k.holder 0 (some 1) 1 = some 0 by decide)
  exact ⟨by decide, h1.mpr hcycle, h2 (h1.mpr hcycle)⟩

end Mutex
end KickOS
