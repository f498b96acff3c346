import KickOS.Kernel.Records
import KickOS.Lib.Donation

/-! Donated priorities in the kernel.

`thread_effective_prio` is the least bound of a thread's base priority and of the priorities of its donors: the
threads parked on the records it holds, the callers that wait for its reply, and the callers parked on the endpoints
it serves. The chain walks of `lock_attempt` and `thread_abort_park` are those of `Lib.Donation` over the relation
from a parked thread to the holder of the mutex it waits for. -/

namespace KickOS
namespace Kernel
open Lib.Chain Lib.Donation

variable {s s' : Kernel} {D : List Tid} {t c w o u : Tid} {m : Rid} {p n : Nat}

/-- The thread whose mutex `t` is parked on. -/
def holder (s : Kernel) (t : Tid) : Option Tid := (s.waitMutex t).bind fun m => (s.wrec m).owner

theorem holder_some (h : s.holder t = some o) : ∃ m, (s.thr t).edge = .mutex m ∧ (s.wrec m).owner = some o := by
  obtain ⟨m, hm, ho⟩ := Option.bind_eq_some_iff.mp h
  refine ⟨m, ?_, ho⟩
  unfold waitMutex at hm
  split at hm
  · rename_i e
    cases hm
    exact e
  · cases hm

theorem holder_of_edge (h : (s.thr t).edge = .mutex m) : s.holder t = (s.wrec m).owner := by
  simp [holder, waitMutex, h]

theorem holder_core (h : s'.core = s.core) : s'.holder = s.holder :=
  core_read Kernel.holder h fun _ => rfl

/-! ### The effective priority -/

/-- `c` donates to `t`. -/
def Donor (s : Kernel) (c t : Tid) : Prop :=
  (∃ m ∈ (s.thr t).heldList, c ∈ (s.wrec m).waiters) ∨
  (c ∈ (s.thr t).replyWaiters ∧ (s.thr c).callState = .replyWait) ∨
  (∃ e ∈ (s.thr t).served, c ∈ (s.ep e).sendWaiters ∧ (s.thr c).callState = .sendWait)

theorem foldl_le_iff {α : Type} {f : Nat → α → Nat} {Q : α → Prop} (hf : ∀ p x, f p x ≤ n ↔ p ≤ n ∧ Q x) (b : Nat)
    (l : List α) : l.foldl f b ≤ n ↔ b ≤ n ∧ ∀ x ∈ l, Q x := by
  induction l generalizing b with
  | nil => simp
  | cons x l ih => simp only [List.foldl_cons, ih, hf, List.forall_mem_cons, and_assoc]

theorem maxPrio_le_iff (b : Nat) (l : List Tid) : s.maxPrio b l ≤ n ↔ b ≤ n ∧ ∀ x ∈ l, (s.thr x).prio ≤ n :=
  foldl_le_iff (Q := fun x => (s.thr x).prio ≤ n) (fun _ _ => max_le_iff) b l

theorem peekFrom_le (best : Tid) (l : List Tid) :
    (s.thr (s.peekFrom best l)).prio ≤ n ↔ (s.thr best).prio ≤ n ∧ ∀ x ∈ l, (s.thr x).prio ≤ n := by
  induction l generalizing best with
  | nil => simp [peekFrom]
  | cons a l ih =>
    unfold peekFrom
    split_ifs with h
    · rw [ih, List.forall_mem_cons]
      constructor
      · rintro ⟨h1, h2⟩
        exact ⟨h.le.trans h1, h1, h2⟩
      · rintro ⟨-, h1, h2⟩
        exact ⟨h1, h2⟩
    · rw [ih, List.forall_mem_cons]
      constructor
      · rintro ⟨h1, h2⟩
        exact ⟨h1, (Nat.le_of_not_lt h).trans h1, h2⟩
      · rintro ⟨h1, -, h2⟩
        exact ⟨h1, h2⟩

theorem wqPeekHighest_le {l : List Tid} (h : s.wqPeekHighest l = some w) :
    (s.thr w).prio ≤ n ↔ ∀ x ∈ l, (s.thr x).prio ≤ n := by
  cases l with
  | nil => cases h
  | cons a l =>
    cases h
    rw [peekFrom_le, List.forall_mem_cons]

theorem effectivePrio_le_iff :
    s.effectivePrio t ≤ n ↔ (s.thr t).basePrio ≤ n ∧ ∀ c, s.Donor c t → (s.thr c).prio ≤ n := by
  have hserved : ∀ p e, s.maxPrio p ((s.ep e).sendWaiters.filter fun c => (s.thr c).callState = .sendWait) ≤ n ↔
      p ≤ n ∧ ∀ x ∈ (s.ep e).sendWaiters.filter (fun c => (s.thr c).callState = .sendWait), (s.thr x).prio ≤ n :=
    fun p e => maxPrio_le_iff p _
  unfold effectivePrio
  simp only
  rw [foldl_le_iff hserved, maxPrio_le_iff]
  refine (and_congr_left' (and_congr_left' (foldl_le_iff (Q := fun m => ∀ x ∈ (s.wrec m).waiters, (s.thr x).prio ≤ n)
    (fun p m => ?_) _ _))).trans ?_
  · cases hw : s.wqPeekHighest (s.wrec m).waiters with
    | none => simp [wqPeekHighest_eq_none.mp hw]
    | some w => simp only [max_le_iff, wqPeekHighest_le hw]
  constructor
  · rintro ⟨⟨⟨hb, hm⟩, hr⟩, he⟩
    refine ⟨hb, fun c hc => ?_⟩
    rcases hc with ⟨m, h1, h2⟩ | ⟨h1, h2⟩ | ⟨e, h1, h2, h3⟩
    · exact hm m h1 c h2
    · exact hr c (List.mem_filter.mpr ⟨h1, by simpa using h2⟩)
    · exact he e h1 c (List.mem_filter.mpr ⟨h2, by simpa using h3⟩)
  · rintro ⟨hb, hd⟩
    refine ⟨⟨⟨hb, fun m hm c hc => hd c (.inl ⟨m, hm, hc⟩)⟩, fun c hc => ?_⟩, fun e he c hc => ?_⟩
    · obtain ⟨h1, h2⟩ := List.mem_filter.mp hc
      exact hd c (.inr (.inl ⟨h1, by simpa using h2⟩))
    · obtain ⟨h1, h2⟩ := List.mem_filter.mp hc
      exact hd c (.inr (.inr ⟨e, he, h1, by simpa using h2⟩))

theorem effectivePrio_congr {t' : Tid} (hb : (s'.thr t').basePrio = (s.thr t).basePrio)
    (hd : ∀ c, s'.Donor c t' ↔ s.Donor c t) (hp : ∀ c, s.Donor c t → (s'.thr c).prio = (s.thr c).prio) :
    s'.effectivePrio t' = s.effectivePrio t := by
  have h : ∀ n, s'.effectivePrio t' ≤ n ↔ s.effectivePrio t ≤ n := fun n => by
    rw [effectivePrio_le_iff, effectivePrio_le_iff, hb]
    refine and_congr_right fun _ => forall_congr' fun c => ?_
    rw [hd]
    exact imp_congr_right fun hc => by rw [hp c hc]
  exact Nat.le_antisymm ((h _).mpr le_rfl) ((h _).mp le_rfl)

theorem donor_core (h : s'.core = s.core) : s'.Donor = s.Donor := core_read Kernel.Donor h fun _ => rfl

theorem basePrio_core (h : s'.core = s.core) (t : Tid) : (s'.thr t).basePrio = (s.thr t).basePrio :=
  core_read (fun k => (k.thr t).basePrio) h fun _ => rfl

theorem effectivePrio_core (h : s'.core = s.core) (hp : ∀ t, (s'.thr t).prio = (s.thr t).prio) (t : Tid) :
    s'.effectivePrio t = s.effectivePrio t :=
  effectivePrio_congr (basePrio_core h t) (fun c => by rw [donor_core h]) fun c _ => hp c

/-! ### The walks -/

def withPrio (s : Kernel) (pr : Tid → Nat) : Kernel := { s with thr := fun t => { s.thr t with prio := pr t } }

theorem chainMeets_succ : s.chainMeets c (n + 1) o =
    (decide (o = c) || match s.holder o with
      | none => false
      | some o' => s.chainMeets c n o') := by
  conv_lhs => unfold chainMeets
  by_cases h : o = c
  · simp [h]
  · rcases hm : s.waitMutex o with _ | m
    · simp [h, holder, hm]
    · rcases ho : (s.wrec m).owner with _ | o'
      · simp [h, holder, hm, ho]
      · simp [h, holder, hm, ho]

theorem raiseChain_succ : raiseChain p (n + 1) s o =
    if p ≤ (s.thr o).prio then s
    else match s.holder o with
      | none => s.setPrio o p
      | some o' => raiseChain p n (s.setPrio o p) o' := by
  have hh : (s.setPrio o p).holder = s.holder := holder_core setPrio_core
  conv_lhs => unfold raiseChain
  split_ifs
  · rfl
  · rw [← hh]
    dsimp only
    rcases hm : (s.setPrio o p).waitMutex o with _ | m
    · simp [holder, hm]
    · rcases ho : ((s.setPrio o p).wrec m).owner with _ | o'
      · simp [holder, hm, ho]
      · simp [holder, hm, ho]

theorem lowerChain_succ : lowerChain (n + 1) s o =
    if s.effectivePrio o = (s.thr o).prio then s
    else match s.holder o with
      | none => s.setPrio o (s.effectivePrio o)
      | some o' => lowerChain n (s.setPrio o (s.effectivePrio o)) o' := by
  have hh : (s.setPrio o (s.effectivePrio o)).holder = s.holder := holder_core setPrio_core
  conv_lhs => unfold lowerChain
  dsimp only
  split_ifs
  · rfl
  · rw [← hh]
    rcases hm : (s.setPrio o (s.effectivePrio o)).waitMutex o with _ | m
    · simp [holder, hm]
    · rcases ho : ((s.setPrio o (s.effectivePrio o)).wrec m).owner with _ | o'
      · simp [holder, hm, ho]
      · simp [holder, hm, ho]

theorem withPrio_core {pr : Tid → Nat} : (s.withPrio pr).core = s.core := core_ext (fun _ => rfl) rfl

theorem setPrio_prio : (fun u => ((s.setPrio o p).thr u).prio) = Function.update (fun u => (s.thr u).prio) o p := by
  funext u
  rw [setPrio_thr]
  by_cases hu : u = o
  · subst hu; simp
  · simp [hu]

theorem setPrio_field {α : Type} (g : Thread → α) (hg : ∀ x p, g { x with prio := p } = g x) (u : Tid) :
    g ((s.setPrio o p).thr u) = g (s.thr u) := by
  rw [setPrio_thr]
  by_cases hu : u = o
  · subst hu; simpa using hg (s.thr u) p
  · simp [hu]

theorem withPrio_setPrio {pr : Tid → Nat} : ((s.setPrio o p).withPrio pr).thr = (s.withPrio pr).thr := by
  funext u
  simp only [withPrio, setPrio_thr]
  by_cases hu : u = o
  · subst hu; simp
  · simp [hu]

theorem raiseChain_thr : ∀ (n : Nat) (s : Kernel) (o : Tid),
    (raiseChain p n s o).thr = (s.withPrio (raise s.holder p n (fun u => (s.thr u).prio) o)).thr := by
  intro n
  induction n with
  | zero => intro s o; rfl
  | succ n ih =>
    intro s o
    rw [raiseChain_succ]
    unfold raise
    split_ifs with hp
    · rfl
    · cases s.holder o with
      | none =>
        rw [← withPrio_setPrio, ← setPrio_prio]
        rfl
      | some o' =>
        dsimp only
        rw [ih, withPrio_setPrio, setPrio_prio, holder_core setPrio_core]

theorem raiseChain_core : ∀ (n : Nat) (s : Kernel) (o : Tid), (raiseChain p n s o).core = s.core := by
  intro n
  induction n with
  | zero => intro s o; rfl
  | succ n ih =>
    intro s o
    rw [raiseChain_succ]
    split_ifs
    · rfl
    · cases s.holder o with
      | none => exact setPrio_core
      | some o' => exact (ih _ _).trans setPrio_core

theorem Placed.raiseChain : ∀ (n : Nat) (s : Kernel) (o : Tid), Placed s D → Placed (raiseChain p n s o) D := by
  intro n
  induction n with
  | zero => intro s o h; exact h
  | succ n ih =>
    intro s o h
    rw [raiseChain_succ]
    split_ifs
    · exact h
    · cases s.holder o with
      | none => exact h.setPrio
      | some o' => exact ih _ _ h.setPrio

theorem lowerChain_thr : ∀ (n : Nat) (s : Kernel) (o : Tid), (lowerChain n s o).thr =
    (s.withPrio (lower (fun pr => (s.withPrio pr).effectivePrio) s.holder n (fun u => (s.thr u).prio) o)).thr := by
  intro n
  induction n with
  | zero => intro s o; rfl
  | succ n ih =>
    intro s o
    rw [lowerChain_succ]
    unfold lower
    have heff : ((s.withPrio fun u => (s.thr u).prio).effectivePrio o) = s.effectivePrio o := rfl
    rw [heff]
    generalize s.effectivePrio o = p
    have heffs : (fun pr => ((s.setPrio o p).withPrio pr).effectivePrio) = fun pr => (s.withPrio pr).effectivePrio := by
      funext pr u
      exact effectivePrio_core (withPrio_core.trans (setPrio_core.trans withPrio_core.symm)) (fun _ => rfl) u
    split_ifs with hp
    · rfl
    · cases s.holder o with
      | none =>
        rw [← withPrio_setPrio, ← setPrio_prio]
        rfl
      | some o' =>
        dsimp only
        rw [ih, withPrio_setPrio, setPrio_prio, holder_core setPrio_core, heffs]

theorem lowerChain_core : ∀ (n : Nat) (s : Kernel) (o : Tid), (lowerChain n s o).core = s.core := by
  intro n
  induction n with
  | zero => intro s o; rfl
  | succ n ih =>
    intro s o
    rw [lowerChain_succ]
    split_ifs
    · rfl
    · cases s.holder o with
      | none => exact setPrio_core
      | some o' => exact (ih _ _).trans setPrio_core

theorem Placed.lowerChain : ∀ (n : Nat) (s : Kernel) (o : Tid), Placed s D → Placed (lowerChain n s o) D := by
  intro n
  induction n with
  | zero => intro s o h; exact h
  | succ n ih =>
    intro s o h
    rw [lowerChain_succ]
    split_ifs
    · exact h
    · cases s.holder o with
      | none => exact h.setPrio
      | some o' => exact ih _ _ h.setPrio

theorem Placed.recompute (h : Placed s D) : Placed (s.recompute t) D := h.setPrio

/-! ### The chains -/

/-- Only a parked thread has a next, so a chain of holders has fewer links than there are threads. -/
theorem Placed.holder_mem (h : Placed s D) (hh : s.holder t = some o) : t ∈ Finset.range s.count := by
  obtain ⟨m, he, -⟩ := holder_some hh
  refine Finset.mem_range.mpr (h.links.bound t ?_)
  by_contra hb
  rw [(h.links.at_rest t hb).1] at he
  cases he

theorem rank_lt_count : rank s.holder (Finset.range s.count) t < s.count + 1 :=
  Nat.lt_succ_of_le ((rank_le _ t).trans (Finset.card_range _).le)

theorem Placed.chainMeets_iff (h : Placed s D) (hac : Acyclic s.holder) (c : Tid) : ∀ (n : Nat) (o : Tid),
    rank s.holder (Finset.range s.count) o < n → (s.chainMeets c n o = true ↔ Reach s.holder o c) := by
  intro n
  induction n with
  | zero => intro o hn; exact absurd hn (Nat.not_lt_zero _)
  | succ n ih =>
    intro o hn
    rw [chainMeets_succ, reach_iff, Bool.or_eq_true, decide_eq_true_eq]
    refine or_congr_right ?_
    cases ho : s.holder o with
    | none => simp
    | some o' =>
      have hr := rank_lt hac (h.holder_mem ho) ho
      simp only [Option.some.injEq, exists_eq_left']
      exact ih o' (by omega)

theorem Placed.raiseChain_fuel (h : Placed s D) (hac : Acyclic s.holder) : ∀ (n n' : Nat) (s' : Kernel) (o : Tid),
    s'.holder = s.holder → rank s.holder (Finset.range s.count) o < n → rank s.holder (Finset.range s.count) o < n' →
    Kernel.raiseChain p n s' o = Kernel.raiseChain p n' s' o := by
  intro n
  induction n with
  | zero => intro n' s' o _ hn; exact absurd hn (Nat.not_lt_zero _)
  | succ n ih =>
    intro n' s' o hh hn hn'
    obtain ⟨n', rfl⟩ := Nat.exists_eq_succ_of_ne_zero (Nat.ne_of_gt (Nat.lt_of_le_of_lt (Nat.zero_le _) hn'))
    rw [raiseChain_succ, raiseChain_succ, hh]
    split_ifs
    · rfl
    · cases ho : s.holder o with
      | none => rfl
      | some o' =>
        have hr := rank_lt hac (h.holder_mem ho) ho
        exact ih n' _ o' ((holder_core setPrio_core).trans hh) (by omega) (by omega)

end Kernel
end KickOS
