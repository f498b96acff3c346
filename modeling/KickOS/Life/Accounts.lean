import KickOS.Life.Ledger
import KickOS.Life.Lineage

/-! The accounts of tasks, threads and domains: every count is what its holders say, through the functions on tasks and
windows. -/

namespace KickOS
namespace Life
namespace Pools
open Function (update update_apply update_idem update_of_ne update_self)

variable {g : Geometry} {s s' : Pools} {d t i c : Nat}

/-- The live members of a task: the threads of it that are not on their way out. -/
def liveMembers (g : Geometry) (s : Pools) (t : Nat) : Nat :=
  Lib.count g.threads fun i => decide ((s.pool.slots i).task = some t ∧ (s.pool.slots i).dying = false)

/-- What a task record holds of domain `d`: one reference for its members, one for its creator. -/
def TaskRec.holds (x : TaskRec) (d : Nat) : Nat :=
  (if x.domain = some d ∧ x.refcount ≠ 0 then 1 else 0) + if x.domain = some d ∧ x.creatorTag ≠ killTagNone then 1 else 0

/-- The references of the tasks to domain `d`. -/
def taskRefs (g : Geometry) (s : Pools) (d : Nat) : Nat :=
  (Lib.count g.tasks fun t => decide ((s.tasks t).domain = some d ∧ (s.tasks t).refcount ≠ 0)) +
    Lib.count g.tasks fun t => decide ((s.tasks t).domain = some d ∧ (s.tasks t).creatorTag ≠ killTagNone)

theorem taskRefs_update (ht : t < g.tasks) {x : TaskRec} (hs : s'.tasks = update s.tasks t x) (d : Nat) :
    taskRefs g s' d + TaskRec.holds (s.tasks t) d = taskRefs g s d + TaskRec.holds x d := by
  have h1 := Lib.count_update s.tasks x (fun y => decide (y.domain = some d ∧ y.refcount ≠ 0)) ht
  have h2 := Lib.count_update s.tasks x (fun y => decide (y.domain = some d ∧ y.creatorTag ≠ killTagNone)) ht
  rw [← hs] at h1 h2
  have hbool : ∀ p : Prop, ∀ [Decidable p], (decide p).toNat = if p then 1 else 0 := by
    intro p _
    by_cases hp : p <;> simp [hp]
  rw [hbool, hbool] at h1 h2
  simp only [taskRefs, TaskRec.holds]
  omega

theorem taskRefs_congr (hs : s'.tasks = s.tasks) : taskRefs g s' = taskRefs g s := by
  funext d
  simp only [taskRefs, hs]

theorem taskRefs_pos : 1 ≤ taskRefs g s d ↔ ∃ t < g.tasks, (s.tasks t).domain = some d ∧
    ((s.tasks t).refcount ≠ 0 ∨ (s.tasks t).creatorTag ≠ killTagNone) := by
  rw [taskRefs]
  constructor
  · intro h
    by_cases h1 : 0 < Lib.count g.tasks fun t => decide ((s.tasks t).domain = some d ∧ (s.tasks t).refcount ≠ 0)
    · obtain ⟨t, ht, hd⟩ := Lib.count_pos.1 h1
      have hd' := of_decide_eq_true hd
      exact ⟨t, ht, hd'.1, .inl hd'.2⟩
    · obtain ⟨t, ht, hd⟩ := Lib.count_pos.1 (show 0 < Lib.count g.tasks fun t =>
        decide ((s.tasks t).domain = some d ∧ (s.tasks t).creatorTag ≠ killTagNone) by omega)
      have hd' := of_decide_eq_true hd
      exact ⟨t, ht, hd'.1, .inr hd'.2⟩
  · rintro ⟨t, ht, hd, hr | hr⟩
    · have hpos : 0 < Lib.count g.tasks fun t => decide ((s.tasks t).domain = some d ∧ (s.tasks t).refcount ≠ 0) :=
        Lib.count_pos.2 ⟨t, ht, decide_eq_true ⟨hd, hr⟩⟩
      omega
    · have hpos : 0 < Lib.count g.tasks fun t =>
          decide ((s.tasks t).domain = some d ∧ (s.tasks t).creatorTag ≠ killTagNone) :=
        Lib.count_pos.2 ⟨t, ht, decide_eq_true ⟨hd, hr⟩⟩
      omega

/-- A window is held by a live member of the task whose space has it, or by the thread under way in `x`, of a task. -/
def WinOf (s : Pools) (x : Option (Nat × Nat)) (w : Window) : Prop :=
  (∃ t, (s.pool.slots w.holder).task = some t ∧ (s.pool.slots w.holder).dying = false ∧
    (s.tasks t).domain = some w.place) ∨ ∃ t, x = some (w.holder, t) ∧ (s.tasks t).domain = some w.place

/-- The windows of all holders: few of each. -/
structure Few (g : Geometry) (l : List Window) : Prop where
  holder : ∀ w ∈ l, w.holder < g.threads
  le : ∀ h, (l.countP fun w => decide (w.holder = h)) ≤ g.windows

theorem length_le_holders (k : Nat) : ∀ (n : Nat) (l : List Window), (∀ w ∈ l, w.holder < n) →
    (∀ h, (l.countP fun w => decide (w.holder = h)) ≤ k) → l.length ≤ n * k
  | 0, l, hl, _ => by
    cases l with
    | nil => simp
    | cons w rest => exact absurd (hl w List.mem_cons_self) (Nat.not_lt_zero _)
  | n + 1, l, hl, hk => by
    have hsplit := List.length_eq_countP_add_countP (fun w : Window => decide (w.holder = n)) (l := l)
    have hrest := length_le_holders k n (l.filter fun w => decide (w.holder ≠ n)) (by
      intro w hw
      obtain ⟨hw1, hw2⟩ := List.mem_filter.1 hw
      have := hl w hw1
      have := of_decide_eq_true hw2
      omega) (by
      intro h
      exact le_trans (List.Sublist.countP_le List.filter_sublist) (hk h))
    have hn := hk n
    have heq : (l.filter fun w => decide (w.holder ≠ n)).length = l.countP fun w => !decide (w.holder = n) := by
      rw [List.countP_eq_length_filter]
      congr 1
      refine List.filter_congr fun w _ => ?_
      simp
    rw [heq] at hrest
    have hmul : (n + 1) * k = n * k + k := Nat.succ_mul n k
    simp only [Bool.not_eq_true] at hsplit
    have hconv : (l.countP fun w => decide ((decide (w.holder = n)) = false)) = l.countP fun w => !decide (w.holder = n) := by
      refine List.countP_congr fun w _ => ?_
      simp
    omega

theorem Few.length_le (h : Few g s.windows) : s.windows.length ≤ 1016 := by
  have hl := length_le_holders g.windows g.threads s.windows h.holder h.le
  have h1 := Nat.mul_le_mul g.threads_le g.windows_le
  omega

theorem Ledger.fits {P : Nat → Nat} {hole : Option Nat} {u : Pools} (h : Ledger g (taskRefs g s) P hole u)
    (hw : Few g u.windows) (hP : ∀ x, P x ≤ 1) (x : Nat) :
    taskRefs g s x + P x + u.edges g x + u.wins x < 65535 := by
  have hrefs : taskRefs g s x ≤ 2 * g.tasks := by
    have h1 := Lib.count_le (n := g.tasks) (p := fun t => decide ((s.tasks t).domain = some x ∧ (s.tasks t).refcount ≠ 0))
    have h2 := Lib.count_le (n := g.tasks)
      (p := fun t => decide ((s.tasks t).domain = some x ∧ (s.tasks t).creatorTag ≠ killTagNone))
    rw [taskRefs]
    omega
  have hwins : u.wins x ≤ u.windows.length := List.countP_le_length
  have hlen := hw.length_le
  -- every borrower is a task's domain, or the one being built
  have hedges : u.edges g x ≤ g.tasks + 1 := by
    have hsub : (Finset.range g.domains).filter (fun e => (u.doms e).borrowedFrom = some x) ⊆
        insert (hole.getD 0) ((Finset.range g.tasks).image fun t => ((s.tasks t).domain).getD 0) := by
      intro e he
      obtain ⟨-, he⟩ := Finset.mem_filter.1 he
      rw [Finset.mem_insert, Finset.mem_image]
      rcases (h.edge e x he).2 with hR | hR
      · obtain ⟨t, ht, hd, -⟩ := taskRefs_pos.1 hR
        exact .inr ⟨t, Finset.mem_range.2 ht, by rw [hd]; rfl⟩
      · exact .inl (by rw [hR]; rfl)
    have hcard := Finset.card_le_card hsub
    have hins := Finset.card_insert_le (hole.getD 0) ((Finset.range g.tasks).image fun t => ((s.tasks t).domain).getD 0)
    have himg := Finset.card_image_le (s := Finset.range g.tasks) (f := fun t => ((s.tasks t).domain).getD 0)
    rw [Finset.card_range] at himg
    have hcount : u.edges g x = ((Finset.range g.domains).filter fun e => (u.doms e).borrowedFrom = some x).card := by
      rw [edges, Lib.count, List.countP_eq_length_filter]
      rfl
    omega
  have := g.tasks_le
  have := hP x
  omega

def TaskRec.InUse (x : TaskRec) : Prop := x.refcount ≠ 0 ∨ x.creatorTag ≠ killTagNone

/-- The accounts of tasks, threads and domains. `x` is the thread under way with windows at the space of a task, `k` what
the count of a task is above its members and its idle thread. -/
structure Sound (g : Geometry) (x : Option (Nat × Nat)) (k : Nat → Nat) (s : Pools) : Prop where
  ledger : Ledger g (taskRefs g s) (fun _ => 0) none s
  members : ∀ t, t < g.tasks → (s.tasks t).refcount = s.liveMembers g t + (if t < g.cores then 1 else 0) + k t
  joined : ∀ i t, (s.pool.slots i).task = some t → g.cores ≤ t ∧ t < g.tasks ∧ i < g.threads
  gone : ∀ i, (s.pool.slots i).state = .exited → (s.pool.slots i).task = none
  named : ∀ t d, (s.tasks t).domain = some d → t < g.tasks ∧ d < 2 + s.domFresh ∧ TaskRec.InUse (s.tasks t)
  held : ∀ t, TaskRec.InUse (s.tasks t) → (s.tasks t).domain ≠ none
  made : ∀ t, (s.tasks t).creatorTag ≠ killTagNone → g.cores ≤ t
  kernel : ∀ t, t < g.cores → (s.tasks t).domain = some kdomKernel
  once : ∀ t u d, 2 ≤ d → (s.tasks t).domain = some d → (s.tasks u).domain = some d → t = u
  high : g.translating = true → ∀ t d, g.cores ≤ t → (s.tasks t).domain = some d → 2 ≤ d
  windows : ∀ w ∈ s.windows, WinOf s x w
  few : Few g s.windows
  gens : ∀ t, (s.tasks t).gen = BitVec.ofNat 16 (s.tasks t).frees

variable {x : Option (Nat × Nat)} {k : Nat → Nat}

/-- The accounts read of a slot its task, its mark and whether it is gone; a thread on its way out may leave its task. -/
theorem Sound.slots (h : Sound g x k s) {q : ThreadPool} {b : Nat}
    (ht : ∀ j, (q.slots j).task = (s.pool.slots j).task ∨ (q.slots j).task = none ∧ (s.pool.slots j).dying = true)
    (hd : ∀ j, (q.slots j).dying = (s.pool.slots j).dying)
    (hg : ∀ j, (q.slots j).state = .exited → (q.slots j).task = none) :
    Sound g x k { s with pool := q, births := b } := by
  have hsub : ∀ j t, (q.slots j).task = some t → (s.pool.slots j).task = some t := by
    intro j t hj
    rcases ht j with hk | ⟨hk, -⟩
    · exact hk.symm.trans hj
    · rw [hk] at hj
      cases hj
  have hlive : ∀ j, (s.pool.slots j).dying = false → (q.slots j).task = (s.pool.slots j).task := by
    intro j hj
    refine (ht j).resolve_right fun hk => ?_
    rw [hk.2] at hj
    cases hj
  refine ⟨?_, ?_, fun i t hi => h.joined i t (hsub i t hi), hg, h.named, h.held, h.made, h.kernel, h.once, h.high, ?_,
    h.few, h.gens⟩
  · have hr : taskRefs g { s with pool := q, births := b } = taskRefs g s := taskRefs_congr rfl
    rw [hr]
    exact h.ledger.congr rfl rfl rfl rfl
  · intro t htl
    rw [h.members t htl]
    refine congrArg (· + _ + _) (Lib.count_congr fun i _ => ?_)
    show decide (_ ∧ _) = decide ((q.slots i).task = some t ∧ (q.slots i).dying = false)
    rw [hd]
    by_cases hi : (s.pool.slots i).dying = false
    · rw [hlive i hi]
    · simp [hi]
  · intro w hw
    refine (h.windows w hw).imp ?_ id
    rintro ⟨t, h1, h2, h3⟩
    exact ⟨t, (hlive _ h2).trans h1, (hd _).trans h2, h3⟩

theorem Sound.folk (h : Sound g x k s) {q : ThreadPool} (hf : ThreadPool.SameFolk s.pool q) :
    Sound g x k { s with pool := q } :=
  h.slots (fun j => .inl (hf.task j)) hf.dying fun j hj => (hf.task j).trans (h.gone j ((hf.state j).symm.trans hj))

theorem Sound.space (h : Sound g x k s) (ht : g.translating = true) {t : Nat} (hc : g.cores ≤ t) (hu : TaskRec.InUse (s.tasks t))
    (hd : (s.tasks t).domain = some d) : 2 ≤ d ∧ 1 ≤ taskRefs g s d ∧ (s.doms d).space = true := by
  have hlow := h.high ht t d hc hd
  have hpos : 1 ≤ taskRefs g s d := taskRefs_pos.2 ⟨t, (h.named t d hd).1, hd, hu⟩
  exact ⟨hlow, hpos, h.ledger.spaced ht d hlow hpos⟩

theorem Sound.member_pos (h : Sound g x k s) {i t : Nat} (ht : (s.pool.slots i).task = some t)
    (hd : (s.pool.slots i).dying = false) : (s.tasks t).refcount ≠ 0 := by
  obtain ⟨-, h2, h3⟩ := h.joined i t ht
  have hpos : 0 < s.liveMembers g t := Lib.count_pos.2 ⟨i, h3, decide_eq_true ⟨ht, hd⟩⟩
  have := h.members t h2
  omega

theorem Sound.record (h : Sound g x k s) {k' : Nat → Nat} {y : TaskRec} (ht : y.domain ≠ none → t < g.tasks)
    (htasks : s'.tasks = update s.tasks t y) (htask : ∀ j, (s'.pool.slots j).task = (s.pool.slots j).task)
    (hdying : ∀ j, (s'.pool.slots j).dying = (s.pool.slots j).dying)
    (hgone : ∀ j, (s'.pool.slots j).state = .exited → (s.pool.slots j).task = none)
    (hL : Ledger g (taskRefs g s') (fun _ => 0) none s') (hwin : s'.windows = s.windows) (hfresh : s.domFresh ≤ s'.domFresh)
    (hmem : t < g.tasks → y.refcount = s.liveMembers g t + (if t < g.cores then 1 else 0) + k' t) (hk : ∀ u, u ≠ t → k' u = k u)
    (hdom : ∀ d, y.domain = some d → d < 2 + s'.domFresh ∧ TaskRec.InUse y ∧
      (2 ≤ d → ∀ u, u ≠ t → (s.tasks u).domain ≠ some d) ∧ (g.translating = true → g.cores ≤ t → 2 ≤ d))
    (hheld : TaskRec.InUse y → y.domain ≠ none) (hmade : y.creatorTag ≠ killTagNone → g.cores ≤ t)
    (hkernel : t < g.cores → y.domain = some kdomKernel)
    (hwins : ∀ w ∈ s.windows, (s.tasks t).domain = some w.place → y.domain = some w.place)
    (hgen : y.gen = BitVec.ofNat 16 y.frees) : Sound g x k' s' := by
  have htk : ∀ u, s'.tasks u = if u = t then y else s.tasks u := fun u => by rw [htasks, update_apply]
  have hlive : ∀ u, s'.liveMembers g u = s.liveMembers g u := fun u => Lib.count_congr fun i _ => by rw [htask, hdying]
  refine ⟨hL, ?_, ?_, ?_, ?_, ?_, ?_, ?_, ?_, ?_, ?_, ?_, ?_⟩
  · intro u hu
    rw [htk, hlive]
    by_cases hut : u = t
    · subst hut
      rw [if_pos rfl]
      exact hmem hu
    · rw [if_neg hut, hk u hut]
      exact h.members u hu
  · exact fun i u hi => h.joined i u ((htask i).symm.trans hi)
  · exact fun i hi => (htask i).trans (hgone i hi)
  · intro u d hu
    rw [htk] at hu ⊢
    split_ifs at hu ⊢ with hut
    · exact ⟨hut ▸ ht (by rw [hu]; exact Option.some_ne_none d), (hdom d hu).1, (hdom d hu).2.1⟩
    · obtain ⟨n1, n2, n3⟩ := h.named u d hu
      exact ⟨n1, by omega, n3⟩
  · intro u hu
    rw [htk] at hu ⊢
    split_ifs at hu ⊢ with hut
    · exact hheld hu
    · exact h.held u hu
  · intro u hu
    rw [htk] at hu
    split_ifs at hu with hut
    · exact hut ▸ hmade hu
    · exact h.made u hu
  · intro u hu
    rw [htk]
    split_ifs with hut
    · exact hkernel (hut ▸ hu)
    · exact h.kernel u hu
  · intro u v d hd hu hv
    rw [htk] at hu hv
    split_ifs at hu hv with hut hvt hvt
    · exact hut.trans hvt.symm
    · exact absurd hv ((hdom d hu).2.2.1 hd v hvt)
    · exact absurd hu ((hdom d hv).2.2.1 hd u hut)
    · exact h.once u v d hd hu hv
  · intro htr u d hu hd
    rw [htk] at hd
    split_ifs at hd with hut
    · exact (hdom d hd).2.2.2 htr (hut ▸ hu)
    · exact h.high htr u d hu hd
  · intro w hw
    rw [hwin] at hw
    have hplace : ∀ u, (s.tasks u).domain = some w.place → (s'.tasks u).domain = some w.place := by
      intro u hu
      rw [htk]
      split_ifs with hut
      · exact hwins w hw (hut ▸ hu)
      · exact hu
    rcases h.windows w hw with ⟨u, h1, h2, h3⟩ | ⟨u, h1, h3⟩
    · exact .inl ⟨u, (htask _).trans h1, (hdying _).trans h2, hplace u h3⟩
    · exact .inr ⟨u, h1, hplace u h3⟩
  · rw [hwin]
    exact h.few
  · intro u
    rw [htk]
    split_ifs
    · exact hgen
    · exact h.gens u

theorem holds_of (y : TaskRec) (d : Nat) : TaskRec.holds y d =
    (if y.domain = some d ∧ y.refcount ≠ 0 then 1 else 0) + if y.domain = some d ∧ y.creatorTag ≠ killTagNone then 1 else 0 :=
  rfl

theorem taskRefs_less (ht : t < g.tasks) {y : TaskRec} (hs : s'.tasks = update s.tasks t y) {d : Nat}
    (hy : ∀ e, TaskRec.holds (s.tasks t) e = TaskRec.holds y e + if e = d then 1 else 0) :
    taskRefs g s = bump (taskRefs g s') (some d) := by
  funext e
  have := taskRefs_update (g := g) ht hs e
  have := hy e
  simp only [bump]
  omega

theorem taskRefs_more (ht : t < g.tasks) {y : TaskRec} (hs : s'.tasks = update s.tasks t y) {d : Nat}
    (hy : ∀ e, TaskRec.holds y e = TaskRec.holds (s.tasks t) e + if e = d then 1 else 0) :
    taskRefs g s' = bump (taskRefs g s) (some d) := by
  funext e
  have := taskRefs_update (g := g) ht hs e
  have := hy e
  simp only [bump]
  omega

theorem taskRefs_same (ht : t < g.tasks) {y : TaskRec} (hs : s'.tasks = update s.tasks t y)
    (hy : ∀ e, TaskRec.holds y e = TaskRec.holds (s.tasks t) e) : taskRefs g s' = taskRefs g s := by
  funext e
  have := taskRefs_update (g := g) ht hs e
  have := hy e
  omega

theorem Sound.no_window (h : Sound g none k s) (hd : (s.tasks t).domain = some d) (hlive : s.liveMembers g t = 0) :
    ∀ w ∈ s.windows, w.place ≠ d := by
  rintro w hw rfl
  rcases h.windows w hw with ⟨v, w1, w2, w3⟩ | ⟨v, w1, -⟩
  · cases h.once v t w.place (h.ledger.win w hw).1 w3 hd
    have := Lib.count_eq_zero.1 hlive w.holder (h.joined _ _ w1).2.2
    simp [w1, w2] at this
  · cases w1

theorem Sound.freeDomain (h : Sound g none k s) {u : Pools} {y : TaskRec} (hd : (s.tasks t).domain = some d)
    (hlive : s.liveMembers g t = 0) (htasks : s'.tasks = update s.tasks t y) (hy : y.domain = none)
    (hu : Ledger g (bump (taskRefs g s') (some d)) (fun _ => 0) none u) (hfresh : u.domFresh = s.domFresh)
    (hwin : u.windows = s.windows) :
    Ledger g (taskRefs g s') (fun _ => 0) none (u.freeDomain g d) ∧ WinKept u (u.freeDomain g d) := by
  refine hu.freeDomain (by rw [hfresh]; exact (h.named t d hd).2.1) ?_ (by rw [hwin]; exact h.no_window hd hlive)
  intro hlow
  by_contra hpos
  obtain ⟨v, hv, hvd, -⟩ := taskRefs_pos.1 (show 1 ≤ taskRefs g s' d by omega)
  rw [htasks, update_apply] at hvd
  split_ifs at hvd with hvt
  · rw [hy] at hvd
    cases hvd
  · exact hvt (h.once v t d hlow hvd hd)

/-- The drop of a creator's hold leaves the spaces of the live alone: with the last hold the task is freed. -/
theorem Sound.taskDropHold (h : Sound g none (fun _ => 0) s) (t : Nat) :
    Sound g none (fun _ => 0) (s.taskDropHold g t) := by
  by_cases h0 : (s.tasks t).creatorTag = killTagNone
  · rw [taskDropHold_none h0]
    exact h
  obtain ⟨f1, -, f3⟩ := taskDropHold_frame (g := g) h0
  have hslot := fun j => taskDropHold_slot (g := g) (s := s) t j
  obtain ⟨d, hd⟩ := Option.ne_none_iff_exists'.1 (h.held t (.inr h0))
  obtain ⟨ht, hfresh, -⟩ := h.named t d hd
  have hmem := h.members t ht
  generalize hu : (s.addMembers t).unhold t = u
  have hdoms : u.doms = s.doms ∧ u.domFree = s.domFree ∧ u.domFresh = s.domFresh ∧ u.windows = s.windows ∧
      u.tasks t = { s.tasks t with creatorTag := killTagNone } := by
    rw [← hu, unhold]
    dsimp only
    split_ifs <;> exact ⟨rfl, rfl, rfl, rfl, update_self _ _ _⟩
  obtain ⟨u1, u2, u3, u4, u5⟩ := hdoms
  have hLu : Ledger g (taskRefs g s) (fun _ => 0) none u := h.ledger.congr u1 u2 u3 u4
  have hrefs : taskRefs g s = bump (taskRefs g (s.taskDropHold g t)) (some d) := by
    refine taskRefs_less ht f3 fun e => ?_
    rw [holds_of, holds_of, dropped]
    by_cases hr : (s.tasks t).refcount = 0
    · rw [if_pos hr]
      simp [hr, hd, h0, eq_comm]
    · rw [if_neg hr]
      simp [hr, hd, h0, eq_comm]
  rw [hrefs] at hLu
  have heq : s.taskDropHold g t = if (s.tasks t).refcount = 0 then u.freeTask g t else u.domainRelease g (some d) := by
    rw [Pools.taskDropHold, if_neg h0, hu]
    dsimp only
    rw [u5, hd]
  have hkept : Ledger g (taskRefs g (s.taskDropHold g t)) (fun _ => 0) none (s.taskDropHold g t) ∧
      WinKept u (s.taskDropHold g t) := by
    by_cases hr : (s.tasks t).refcount = 0
    · obtain ⟨hL, hW⟩ := h.freeDomain hd (by omega) f3 (by rw [dropped_domain, if_pos hr]) hLu u3 u4
      generalize taskRefs g (s.taskDropHold g t) = R at hL ⊢
      rw [heq, if_pos hr, freeTask, u5]
      dsimp only
      rw [hd]
      exact ⟨hL.congr rfl rfl rfl rfl, hW.windows, hW.fresh⟩
    · have hstill : 1 ≤ taskRefs g (s.taskDropHold g t) d := by
        refine taskRefs_pos.2 ⟨t, ht, ?_⟩
        rw [f3, update_self, dropped, if_neg hr]
        exact ⟨hd, .inl hr⟩
      have hrel := (hLu.unsettle (.inl hstill)).domainRelease (Option.some_ne_none d).symm
      generalize taskRefs g (s.taskDropHold g t) = R at hrel ⊢
      rw [heq, if_neg hr]
      exact hrel
  refine h.record (fun _ => ht) f3 (fun j => (hslot j).2.2.1) (fun j => (hslot j).2.1) ?_ hkept.1 (hkept.2.windows.trans u4)
    (le_of_eq (hkept.2.fresh.trans u3).symm) ?_ (fun _ _ => rfl) ?_ ?_ (fun hk => absurd (dropped_tag _) hk)
    (fun hlt => absurd (h.made t h0) (by omega)) ?_ ?_
  · intro j hj
    rw [(taskDropHold_slots (g := g) h0).1] at hj
    dsimp only at hj
    rw [addMember] at hj
    split_ifs at hj
    exact h.gone j hj
  · rw [dropped_refcount]
    exact fun _ => hmem
  · intro e he
    rw [dropped_domain] at he
    by_cases hr : (s.tasks t).refcount = 0
    · rw [if_pos hr] at he
      cases he
    · rw [if_neg hr] at he
      rw [hkept.2.fresh, u3]
      exact ⟨(h.named t e he).2.1, .inl (by rw [dropped_refcount]; exact hr),
        fun hlow v hv hve => hv (h.once v t e hlow hve he), fun htr hc => h.high htr t e hc he⟩
  · intro hin
    have hr : (s.tasks t).refcount ≠ 0 := by
      rcases hin with hin | hin
      · rwa [dropped_refcount] at hin
      · exact absurd (dropped_tag _) hin
    rw [dropped_domain, if_neg hr, hd]
    exact Option.some_ne_none d
  · intro w hw hwd
    rw [dropped_domain, if_neg, hwd]
    exact fun hr => h.no_window hwd (by omega) w hw rfl
  · exact dropped_gen _ (h.gens t)

theorem Sound.idle (h : Sound g x k s) (hr : (s.tasks t).refcount = 0) (hc : (s.tasks t).creatorTag = killTagNone) :
    (s.tasks t).domain = none := by
  rw [Option.eq_none_iff_forall_ne_some]
  intro d hd
  rcases (h.named t d hd).2.2 with hu | hu
  · exact hu hr
  · exact hu hc

theorem Sound.donor (h : Sound g x k s) (hd : (s.pool.slots c).dying = false) {e : Nat} (he : s.threadDomain c = some e) :
    ∃ t, (s.pool.slots c).task = some t ∧ (s.tasks t).domain = some e ∧ (s.tasks t).refcount ≠ 0 ∧ t < g.tasks ∧ g.cores ≤ t := by
  obtain ⟨t, ht, hte⟩ := Option.bind_eq_some_iff.1 he
  obtain ⟨j1, j2, -⟩ := h.joined c t ht
  exact ⟨t, ht, hte, h.member_pos ht hd, j2, j1⟩

theorem Sound.rewindow {x' : Option (Nat × Nat)} (h : Sound g x k s) (hd : DomOnly s s')
    (hL : Ledger g (taskRefs g s) (fun _ => 0) none s') (hf : s.domFresh ≤ s'.domFresh)
    (hw : ∀ w ∈ s'.windows, WinOf s x' w) (hfew : Few g s'.windows) : Sound g x' k s' where
  ledger := by
    rw [taskRefs_congr hd.tasks]
    exact hL
  members t ht := by
    rw [hd.tasks, liveMembers, hd.pool]
    exact h.members t ht
  joined := by
    rw [hd.pool]
    exact h.joined
  gone := by
    rw [hd.pool]
    exact h.gone
  named t d ht := by
    rw [hd.tasks] at ht ⊢
    obtain ⟨n1, n2, n3⟩ := h.named t d ht
    exact ⟨n1, by omega, n3⟩
  held := by
    rw [hd.tasks]
    exact h.held
  made := by
    rw [hd.tasks]
    exact h.made
  kernel := by
    rw [hd.tasks]
    exact h.kernel
  once := by
    rw [hd.tasks]
    exact h.once
  high := by
    rw [hd.tasks]
    exact h.high
  windows w hm := by
    rw [WinOf, hd.pool, hd.tasks]
    exact hw w hm
  few := hfew
  gens := by
    rw [hd.tasks]
    exact h.gens

theorem Sound.domOnly (h : Sound g x k s) (hd : DomOnly s s') (hL : Ledger g (taskRefs g s) (fun _ => 0) none s')
    (hw : s'.windows = s.windows) (hf : s.domFresh ≤ s'.domFresh) : Sound g x k s' :=
  h.rewindow hd hL hf (by rw [hw]; exact h.windows) (by rw [hw]; exact h.few)

theorem setTask_domainRef (f : TaskRec → TaskRec) (o : Option Nat) :
    (s.setTask t f).domainRef o = (s.domainRef o).setTask t f := by
  cases o with
  | none => rfl
  | some d =>
    rw [Pools.domainRef, Pools.domainRef]
    have hd : (s.setTask t f).doms = s.doms := rfl
    rw [hd]
    split_ifs <;> rfl

theorem taskHold_frame (d tag : Nat) :
    (s.taskHold t d tag).tasks = update s.tasks t { s.tasks t with creatorTag := tag % 256 } ∧
      (s.taskHold t d tag).pool.slots = s.pool.slots ∧ (s.taskHold t d tag).doms = (s.domainRef (some d)).doms ∧
      (s.taskHold t d tag).domFree = (s.domainRef (some d)).domFree ∧
      (s.taskHold t d tag).domFresh = (s.domainRef (some d)).domFresh ∧
      (s.taskHold t d tag).windows = (s.domainRef (some d)).windows := by
  have hd := domainRef_only (s := s) (some d)
  rw [Pools.taskHold, ← hd.tasks, ← hd.pool]
  dsimp only
  split_ifs <;> exact ⟨rfl, rfl, rfl, rfl, rfl, rfl⟩

theorem Sound.hold (h : Sound g none (fun _ => 0) s) {u : Pools} (ht' : t < g.tasks) (ht : g.cores < t)
    (hr : (s.tasks t).refcount = 0) (hc : (s.tasks t).creatorTag = killTagNone) (honly : DomOnly s u)
    (hL : Ledger g (taskRefs g s) (fun _ => 0) (if 2 ≤ d then some d else none) u) (hA : Answered g s d u) (stamp : Nat)
    {tag : Nat} (htag : tag % 256 ≠ killTagNone) :
    Sound g none (fun _ => 0) ((u.setTask t fun x => x.fill d stamp).taskHold t d tag) := by
  obtain ⟨f1, f2, f3, f4, f5, f6⟩ := taskHold_frame (s := u.setTask t fun x => x.fill d stamp) (t := t) d tag
  have hidle := h.idle hr hc
  generalize (u.setTask t fun x => x.fill d stamp).taskHold t d tag = s' at f1 f2 f3 f4 f5 f6
  have hfill : (u.setTask t fun x => x.fill d stamp).tasks = update s.tasks t ((s.tasks t).fill d stamp) := by
    rw [setTask, honly.tasks]
  rw [hfill, update_self, update_idem] at f1
  rw [setTask_domainRef] at f3 f4 f5 f6
  have hslots : s'.pool.slots = s.pool.slots := f2.trans (congrArg ThreadPool.slots honly.pool)
  have hkept := domainRef_kept (s := u) (some d)
  have hzero : 2 ≤ d → taskRefs g s d = 0 := by
    intro hlow
    have := hL.exact d hlow
    have := hA.zero hlow
    omega
  have hrefs : taskRefs g s' = bump (taskRefs g s) (some d) := by
    refine taskRefs_more ht' f1 fun e => ?_
    rw [holds_of, holds_of, hidle]
    simp [TaskRec.fill, htag, eq_comm]
  have hLs : Ledger g (taskRefs g s') (fun _ => 0) none s' := by
    have href := hL.domainRef (d := d) hA.used (fun hlow => .inr (if_pos hlow)) fun _ =>
      hL.fits (by rw [hA.windows]; exact h.few) (fun _ => Nat.zero_le 1) d
    rw [hrefs]
    refine (href.settle (fun htr _ => ?_) ?_).congr f3 f4 f5 f6
    · rw [Pools.domainRef]
      have hsp := (hA.space htr).2
      split_ifs
      · exact hsp
      · rw [setDom_doms, if_pos rfl]
        exact hsp
    · by_cases hlow : 2 ≤ d
      · exact .inr (if_pos hlow)
      · exact .inl (if_neg hlow)
  have hfresh : s'.domFresh = u.domFresh := f5.trans hkept.fresh
  refine h.record (fun _ => ht') f1 (fun j => by rw [hslots]) (fun j => by rw [hslots])
    (fun j hj => h.gone j (by rw [← hslots]; exact hj)) hLs ((f6.trans hkept.windows).trans hA.windows)
    (by rw [hfresh]; exact hA.fresh) ?_ (fun _ _ => rfl) ?_ (fun _ => Option.some_ne_none d) (fun _ => le_of_lt ht)
      (fun hlt => absurd hlt (by omega)) ?_ (h.gens t)
  · have := h.members t ht'
    rw [hr] at this
    exact fun _ => this
  · intro e he
    cases he
    refine ⟨by rw [hfresh]; exact hA.used, .inr htag, ?_, fun htr _ => (hA.space htr).1⟩
    intro hlow v _ hv
    have hpos := taskRefs_pos.2 ⟨v, (h.named v d hv).1, hv, (h.named v d hv).2.2⟩
    have := hzero hlow
    omega
  · intro w _ hw
    rw [hidle] at hw
    cases hw

theorem Sound.taskCreateDeclared (h : Sound g none (fun _ => 0) s) (hc : Runs s c) (hcn : c < g.threads) (ht : g.cores < t)
    (ht' : t < g.tasks) (hr : (s.tasks t).refcount = 0) (a : DomainAsk) :
    Sound g none (fun _ => 0) (s.taskCreateDeclared g t c a (s.threadDomain c)) := by
  have hv := h.taskDropHold t
  have hvt : ((s.taskDropHold g t).tasks t).refcount = 0 ∧ ((s.taskDropHold g t).tasks t).creatorTag = killTagNone := by
    by_cases h0 : (s.tasks t).creatorTag = killTagNone
    · rw [taskDropHold_none h0]
      exact ⟨hr, h0⟩
    · rw [(taskDropHold_frame (g := g) h0).2.2, update_self]
      exact ⟨(dropped_refcount _).trans hr, dropped_tag _⟩
  have hdon : ∀ e, s.threadDomain c = some e → 1 ≤ taskRefs g (s.taskDropHold g t) e := by
    intro e he
    obtain ⟨v, -, h2, h3, h4, -⟩ := h.donor hc.alive he
    have hvt : v ≠ t := by
      rintro rfl
      exact h3 hr
    have hsame : (s.taskDropHold g t).tasks v = s.tasks v := by
      by_cases h0 : (s.tasks t).creatorTag = killTagNone
      · rw [taskDropHold_none h0]
      · rw [(taskDropHold_frame (g := g) h0).2.2, update_of_ne hvt]
    exact taskRefs_pos.2 ⟨v, h4, by rw [hsame]; exact h2, .inl (by rw [hsame]; exact h3)⟩
  unfold Pools.taskCreateDeclared
  generalize s.threadDomain c = donor at hdon
  generalize s.taskDropHold g t = v at hv hvt hdon
  have honly := domainFor_only (g := g) (s := v) { a with privileged := false } donor
  obtain ⟨hn, hy⟩ := hv.ledger.domainFor { a with privileged := false } rfl donor hdon
    fun u _ hu hw y _ => hu.fits (by rw [hw]; exact hv.few) (fun _ => Nat.zero_le 1) y
  cases hf : v.domainFor g { a with privileged := false } donor with
  | mk o u =>
    rw [hf] at honly
    cases o with
    | none =>
      obtain ⟨n1, n2, n3⟩ := hn u hf
      exact hv.domOnly honly n1 n3 n2
    | some d =>
      obtain ⟨hL, hA⟩ := hy d u hf
      refine hv.hold ht' ht hvt.1 hvt.2 honly hL hA _ ?_
      rw [killTag_eq hcn g.threads_le, Nat.mod_eq_of_lt (by have := g.threads_le; omega)]
      exact Nat.succ_ne_zero c

theorem Sound.orphanLoop {p : Nat} : ∀ (fuel : Nat) (s : Pools), Sound g none (fun _ => 0) s →
    Sound g none (fun _ => 0) (orphanLoop g fuel s p)
  | 0, _, h => h
  | fuel + 1, s, h => by
    rw [Pools.orphanLoop]
    cases s.pool.created p with
    | nil => exact h
    | cons t _ => exact Sound.orphanLoop fuel _ (h.taskDropHold t)

theorem Sound.taskOrphanCreatedBy (h : Sound g none (fun _ => 0) s) (tag : Nat) :
    Sound g none (fun _ => 0) (s.taskOrphanCreatedBy g tag) := by
  rw [Pools.taskOrphanCreatedBy]
  split_ifs
  · exact h
  · exact h.orphanLoop _ s

theorem Sound.flat (h : Sound g x k s) (ht : g.translating = false) (x' : Option (Nat × Nat)) : Sound g x' k s :=
  { h with
    windows := fun w hw => by
      rw [(h.ledger.flat ht).1] at hw
      exact absurd hw List.not_mem_nil }

theorem Sound.unmapHolder (h : Sound g (some (i, t)) k s) :
    Sound g none k (s.unmapHolder g (s.tasks t).domain i) := by
  have honly := unmapHolder_only (g := g) (s := s) (s.tasks t).domain i
  cases hd : (s.tasks t).domain with
  | none =>
    refine { h with windows := fun w hw => (h.windows w hw).imp id ?_ }
    rintro ⟨v, hv, hvd⟩
    cases hv
    rw [hd] at hvd
    cases hvd
  | some d =>
    rw [hd] at honly
    obtain ⟨hL, hcount, hfresh⟩ := h.ledger.unmapHolder (d := d) i (by
      rintro w hw rfl -
      obtain ⟨w1, w2, -⟩ := h.ledger.win w hw
      by_cases htr : g.translating = true
      · exact h.ledger.spaced htr w.place w1 w2
      · rw [(h.ledger.flat (by simpa using htr)).1] at hw
        exact absurd hw List.not_mem_nil)
    have hsub : (s.unmapHolder g (some d) i).windows.Subperm s.windows := by
      rw [List.subperm_ext_iff]
      intro w _
      rw [hcount]
      split_ifs <;> omega
    refine h.rewindow honly hL (le_of_eq hfresh.symm) ?_ ⟨fun w hw => h.few.holder w (hsub.subset hw), ?_⟩
    · intro w hw
      refine (h.windows w (hsub.subset hw)).imp id ?_
      rintro ⟨v, hv, hvd⟩
      cases hv
      have hpos := List.count_pos_iff.2 hw
      rw [hcount, if_pos ⟨(Option.some.inj (hd.symm.trans hvd)).symm, rfl⟩] at hpos
      omega
    · exact fun y => le_trans (hsub.countP_le _) (h.few.le y)

theorem mapWindow_only (w : Window) : DomOnly s (s.mapWindow w) := by
  have hcons : DomOnly s { s with windows := w :: s.windows } := ⟨rfl, rfl, rfl⟩
  exact hcons.trans (domainRef_only w.donor)

/-- A window of slot `i` at the space of task `t`, over memory of a held domain. -/
structure Lends (g : Geometry) (s : Pools) (i t : Nat) (w : Window) : Prop where
  holder : w.holder = i
  place : (s.tasks t).domain = some w.place
  low : 2 ≤ w.place
  pos : 1 ≤ taskRefs g s w.place
  donor : ∀ e, w.donor = some e → 2 ≤ e ∧ 1 ≤ taskRefs g s e

theorem Sound.mapWindow (h : Sound g (some (i, t)) k s) (ht : g.translating = true) {w : Window} (hw : Lends g s i t w)
    (hi : i < g.threads) (hn : (s.windows.countP fun v => decide (v.holder = i)) + 1 ≤ g.windows) :
    Sound g (some (i, t)) k (s.mapWindow w) ∧ (s.mapWindow w).windows = w :: s.windows := by
  obtain ⟨hL, hwin, hf⟩ := h.ledger.mapWindow ht hw.low hw.pos hw.donor fun y _ => h.ledger.fits h.few (fun _ => Nat.zero_le 1) y
  refine ⟨h.rewindow (mapWindow_only w) hL (le_of_eq hf.symm) ?_ ⟨?_, ?_⟩, hwin⟩
  · rw [hwin]
    intro v hv
    rcases List.mem_cons.1 hv with rfl | hv
    · exact .inr ⟨t, by rw [hw.holder], hw.place⟩
    · exact h.windows v hv
  · rw [hwin]
    intro v hv
    rcases List.mem_cons.1 hv with rfl | hv
    · exact hw.holder ▸ hi
    · exact h.few.holder v hv
  · intro y
    rw [hwin, List.countP_cons]
    by_cases hy : w.holder = y
    · rw [← hy, hw.holder]
      simpa using hn
    · simpa [hy] using h.few.le y

theorem Sound.mapWindows (ht : g.translating = true) (hi : i < g.threads) : ∀ (l : List Window) (s : Pools),
    Sound g (some (i, t)) k s → (∀ w ∈ l, Lends g s i t w) →
    (s.windows.countP fun v => decide (v.holder = i)) + l.length ≤ g.windows → Sound g (some (i, t)) k (l.foldl Pools.mapWindow s)
  | [], _, h, _, _ => h
  | w :: rest, s, h, hl, hn => by
    rw [List.length_cons] at hn
    have hw := hl w List.mem_cons_self
    obtain ⟨h1, h2⟩ := h.mapWindow ht hw hi (by omega)
    have honly := mapWindow_only (s := s) w
    refine Sound.mapWindows ht hi rest _ h1 (fun v hv => ?_) ?_
    · obtain ⟨v1, v2, v3, v4, v5⟩ := hl v (List.mem_cons_of_mem _ hv)
      rw [← honly.tasks] at v2
      rw [← taskRefs_congr (g := g) honly.tasks] at v4 v5
      exact ⟨v1, v2, v3, v4, v5⟩
    · rw [h2, List.countP_cons]
      simp only [hw.holder, decide_true, if_true]
      omega

theorem Sound.taskRef (h : Sound g x (fun _ => 0) s) (hu : TaskRec.InUse (s.tasks t)) (hc : g.cores ≤ t) :
    Sound g x (update (fun _ => 0) t 1) (s.taskRef t) := by
  obtain ⟨d, hd⟩ := Option.ne_none_iff_exists'.1 (h.held t hu)
  obtain ⟨ht, hfresh, -⟩ := h.named t d hd
  have hmem := h.members t ht
  have hlive : s.liveMembers g t ≤ g.threads := Lib.count_le
  have hthreads := g.threads_le
  rw [if_neg (by omega)] at hmem
  have honly : DomOnly s (if (s.tasks t).refcount = 0 then s.domainRef (s.tasks t).domain else s) := by
    split_ifs
    · exact domainRef_only _
    · exact .refl s
  generalize hw : (if (s.tasks t).refcount = 0 then s.domainRef (s.tasks t).domain else s) = u at honly
  have hs' : s.taskRef t = u.setTask t fun x => { x with refcount := (x.refcount + 1) % 256 } := by
    rw [← hw]
    rfl
  have htasks : (s.taskRef t).tasks = update s.tasks t { s.tasks t with refcount := (s.tasks t).refcount + 1 } := by
    rw [hs', setTask, honly.tasks, Nat.mod_eq_of_lt (by omega)]
  have hpool : (s.taskRef t).pool = s.pool := by
    rw [hs']
    exact honly.pool
  have hL : Ledger g (taskRefs g (s.taskRef t)) (fun _ => 0) none u ∧ WinKept s u := by
    by_cases hr : (s.tasks t).refcount = 0
    · have htag := hu.resolve_left fun k => k hr
      have hrefs : taskRefs g (s.taskRef t) = bump (taskRefs g s) (some d) := by
        refine taskRefs_more ht htasks fun e => ?_
        rw [holds_of, holds_of]
        simp [hr, hd, htag, eq_comm]
      rw [if_pos hr, hd] at hw
      subst hw
      have hpos : 1 ≤ taskRefs g s d := taskRefs_pos.2 ⟨t, ht, hd, hu⟩
      have href := h.ledger.domainRef (d := d) hfresh (fun hlow => .inl (h.ledger.refcount_pos hlow (.inl hpos)))
        fun _ => h.ledger.fits h.few (fun _ => Nat.zero_le 1) d
      rw [hrefs]
      refine ⟨href.settle (fun htr hlow => ?_) (.inl rfl), domainRef_kept _⟩
      rw [Pools.domainRef]
      have hsp := h.ledger.spaced htr d hlow hpos
      split_ifs
      · exact hsp
      · rw [setDom_doms, if_pos rfl]
        exact hsp
    · have hrefs : taskRefs g (s.taskRef t) = taskRefs g s := by
        refine taskRefs_same ht htasks fun e => ?_
        rw [holds_of, holds_of]
        simp [hr]
      rw [if_neg hr] at hw
      subst hw
      rw [hrefs]
      exact ⟨h.ledger, rfl, rfl⟩
  have hdoms : (s.taskRef t).doms = u.doms ∧ (s.taskRef t).domFree = u.domFree ∧ (s.taskRef t).domFresh = u.domFresh ∧
      (s.taskRef t).windows = u.windows := by
    rw [hs']
    exact ⟨rfl, rfl, rfl, rfl⟩
  obtain ⟨d1, d2, d3, d4⟩ := hdoms
  refine h.record (fun _ => ht) htasks (fun j => by rw [hpool]) (fun j => by rw [hpool])
    (fun j hj => h.gone j (by rw [← hpool]; exact hj)) (hL.1.congr d1 d2 d3 d4) (d4.trans hL.2.windows)
    (by rw [d3, hL.2.fresh]) ?_ (fun v hv => update_of_ne hv _ _) ?_ (fun _ => h.held t hu) (h.made t) (h.kernel t)
    (fun w _ hwd => hwd) (h.gens t)
  · rw [update_self, if_neg (by omega)]
    show _ → (s.tasks t).refcount + 1 = _
    omega
  · intro e he
    rw [d3, hL.2.fresh]
    exact ⟨(h.named t e he).2.1, .inl (Nat.succ_ne_zero _), fun hlow v hv hve => hv (h.once v t e hlow hve he),
      fun htr hk => h.high htr t e hk he⟩

theorem liveMembers_set (s s' : Pools) (hi : i < g.threads)
    (hq : ∀ j, j ≠ i → (s'.pool.slots j).task = (s.pool.slots j).task ∧
      (s'.pool.slots j).dying = (s.pool.slots j).dying) (t : Nat) :
    s'.liveMembers g t + (if (s.pool.slots i).task = some t ∧ (s.pool.slots i).dying = false then 1 else 0) =
      s.liveMembers g t + if (s'.pool.slots i).task = some t ∧ (s'.pool.slots i).dying = false then 1 else 0 := by
  have hset : (fun j => ((s'.pool.slots j).task, (s'.pool.slots j).dying)) =
      update (fun j => ((s.pool.slots j).task, (s.pool.slots j).dying)) i
        ((s'.pool.slots i).task, (s'.pool.slots i).dying) := by
    funext j
    by_cases hj : j = i
    · rw [hj, update_self]
    · rw [update_of_ne hj, (hq j hj).1, (hq j hj).2]
  have hcount := Lib.count_update (fun j => ((s.pool.slots j).task, (s.pool.slots j).dying))
    ((s'.pool.slots i).task, (s'.pool.slots i).dying) (fun y => decide (y.1 = some t ∧ y.2 = false)) hi
  rw [← hset] at hcount
  have hbool : ∀ y : Option Nat × Bool, (decide (y.1 = some t ∧ y.2 = false)).toNat = if y.1 = some t ∧
      y.2 = false then 1 else 0 := by
    intro y
    by_cases hy : y.1 = some t ∧ y.2 = false <;> simp [hy]
  rw [hbool, hbool] at hcount
  exact hcount

theorem Sound.slot {x' : Option (Nat × Nat)} {k' : Nat → Nat} (h : Sound g x k s) {q : ThreadPool} {b : Nat} (hi : i < g.threads)
    (hq : ∀ j, j ≠ i → (q.slots j).task = (s.pool.slots j).task ∧ (q.slots j).dying = (s.pool.slots j).dying ∧
      (q.slots j).state = (s.pool.slots j).state)
    (hj : ∀ u, (q.slots i).task = some u → g.cores ≤ u ∧ u < g.tasks)
    (hg : (q.slots i).state = .exited → (q.slots i).task = none)
    (hk : ∀ u, (if (s.pool.slots i).task = some u ∧ (s.pool.slots i).dying = false then 1 else 0) + k u =
      (if (q.slots i).task = some u ∧ (q.slots i).dying = false then 1 else 0) + k' u)
    (hw : ∀ w ∈ s.windows, WinOf { s with pool := q, births := b } x' w) :
    Sound g x' k' { s with pool := q, births := b } := by
  refine ⟨?_, ?_, ?_, ?_, h.named, h.held, h.made, h.kernel, h.once, h.high, hw, h.few, h.gens⟩
  · have hr : taskRefs g { s with pool := q, births := b } = taskRefs g s := taskRefs_congr rfl
    rw [hr]
    exact h.ledger.congr rfl rfl rfl rfl
  · intro u hu
    have hset := liveMembers_set (g := g) s { s with pool := q, births := b } hi
      (fun j hj => ⟨(hq j hj).1, (hq j hj).2.1⟩) u
    have hmem := h.members u hu
    have hku := hk u
    show (s.tasks u).refcount = _
    dsimp only at hset
    omega
  · intro j u hju
    have hju' : (q.slots j).task = some u := hju
    by_cases hji : j = i
    · subst hji
      exact ⟨(hj u hju').1, (hj u hju').2, hi⟩
    · rw [(hq j hji).1] at hju'
      exact h.joined j u hju'
  · intro j hjs
    have hjs' : (q.slots j).state = .exited := hjs
    show (q.slots j).task = none
    by_cases hji : j = i
    · subst hji
      exact hg hjs'
    · rw [(hq j hji).2.2] at hjs'
      rw [(hq j hji).1]
      exact h.gone j hjs'

theorem WinOf.other {w : Window} {x' : Option (Nat × Nat)} {q : ThreadPool} {b : Nat} (h : WinOf s x w)
    (hq : (q.slots w.holder).task = (s.pool.slots w.holder).task ∧ (q.slots w.holder).dying = (s.pool.slots w.holder).dying)
    (hx : ∀ t, x = some (w.holder, t) → x' = x) : WinOf { s with pool := q, births := b } x' w := by
  rcases h with ⟨t, h1, h2, h3⟩ | ⟨t, h1, h3⟩
  · exact .inl ⟨t, hq.1.trans h1, hq.2.trans h2, h3⟩
  · exact .inr ⟨t, (hx t h1).trans h1, h3⟩

theorem Sound.join (h : Sound g (some (i, t)) (update (fun _ => 0) t 1) s) {q : ThreadPool} {b : Nat}
    (hi : i < g.threads) (ht : g.cores ≤ t ∧ t < g.tasks) (h0 : (s.pool.slots i).task = none)
    (hq : ∀ j, j ≠ i → (q.slots j).task = (s.pool.slots j).task ∧ (q.slots j).dying = (s.pool.slots j).dying ∧
      (q.slots j).state = (s.pool.slots j).state)
    (hqi : (q.slots i).task = some t ∧ (q.slots i).dying = false ∧ (q.slots i).state ≠ .exited) :
    Sound g none (fun _ => 0) { s with pool := q, births := b } := by
  refine h.slot hi hq ?_ (fun hk => absurd hk hqi.2.2) ?_ ?_
  · intro u hu
    cases hqi.1.symm.trans hu
    exact ht
  · intro u
    rw [h0, hqi.1, hqi.2.1, update_apply]
    by_cases hut : u = t
    · simp [hut]
    · simp [hut, Ne.symm hut]
  · intro w hw
    rcases h.windows w hw with hl | ⟨v, hv, hvd⟩
    · by_cases hwi : w.holder = i
      · obtain ⟨v, h1, -, -⟩ := hl
        rw [hwi, h0] at h1
        cases h1
      · exact (show WinOf s none w from .inl hl).other ⟨(hq _ hwi).1, (hq _ hwi).2.1⟩ fun _ hk => rfl
    · cases hv
      exact .inl ⟨t, hqi.1, hqi.2.1, hvd⟩

theorem Sound.mark (h : Sound g none (fun _ => 0) s) (hi : i < g.threads) (ht : (s.pool.slots i).task = some t)
    (hd : (s.pool.slots i).dying = false) (hs : (s.pool.slots i).state ≠ .exited) :
    Sound g (some (i, t)) (update (fun _ => 0) t 1) (s.setSlot i fun x => { x with dying := true }) := by
  have hmod : ∀ j, ((s.pool.modify i fun x => { x with dying := true }).slots j) =
      if j = i then { s.pool.slots i with dying := true } else s.pool.slots j := fun j => ThreadPool.modify_slots _
  refine h.slot (b := s.births) hi ?_ ?_ ?_ ?_ ?_
  · intro j hj
    rw [hmod, if_neg hj]
    exact ⟨rfl, rfl, rfl⟩
  · intro u hu
    rw [hmod, if_pos rfl] at hu
    exact ⟨(h.joined i u hu).1, (h.joined i u hu).2.1⟩
  · intro hk
    rw [hmod, if_pos rfl] at hk
    exact absurd hk hs
  · intro u
    rw [hmod, if_pos rfl, ht, hd, update_apply]
    by_cases hut : u = t
    · simp [hut]
    · simp [hut, Ne.symm hut]
  · intro w hw
    by_cases hwi : w.holder = i
    · rcases h.windows w hw with ⟨v, h1, -, h3⟩ | ⟨v, hv, -⟩
      · rw [hwi, ht] at h1
        cases h1
        exact .inr ⟨t, by rw [hwi], h3⟩
      · cases hv
    · refine (h.windows w hw).other ?_ fun v hv => by cases hv
      rw [hmod, if_neg hwi]
      exact ⟨rfl, rfl⟩

/-- The count of a task goes down by the member that was marked; with the last the task's reference goes, or the task. -/
theorem Sound.taskRelease (h : Sound g none (update (fun _ => 0) t 1) s) (ht : t < g.tasks) (hc : g.cores ≤ t) :
    Sound g none (fun _ => 0) (s.taskRelease g t).2 := by
  have hmem := h.members t ht
  rw [update_self] at hmem
  have hr0 : (s.tasks t).refcount ≠ 0 := by omega
  obtain ⟨d, hd⟩ := Option.ne_none_iff_exists'.1 (h.held t (.inl hr0))
  have hfresh := (h.named t d hd).2.1
  unfold Pools.taskRelease
  rw [if_neg hr0]
  generalize hy : ({ s.tasks t with
    refcount := (s.tasks t).refcount - 1, sweeping := ((s.tasks t).sweeping + 1) % 256 } : TaskRec) = y
  have hset : s.setTask t (fun x => { x with refcount := x.refcount - 1, sweeping := (x.sweeping + 1) % 256 }) =
      { s with tasks := update s.tasks t y } := by
    rw [← hy]
    rfl
  rw [hset]
  have hyt : (update s.tasks t y) t = y := update_self _ _ _
  have hyr : y.refcount = (s.tasks t).refcount - 1 := by rw [← hy]
  have hyc : y.creatorTag = (s.tasks t).creatorTag := by rw [← hy]
  have hyd : y.domain = some d := by
    rw [← hy]
    exact hd
  have hyg : y.gen = BitVec.ofNat 16 y.frees := by
    rw [← hy]
    exact h.gens t
  simp only [hyt, hyd]
  have hown : ∀ e, y.domain = some e → (2 ≤ e → ∀ u, u ≠ t → (s.tasks u).domain ≠ some e) ∧
      (g.translating = true → g.cores ≤ t → 2 ≤ e) ∧ e < 2 + s.domFresh := by
    intro e he
    cases hyd.symm.trans he
    exact ⟨fun hlow v hv hve => hv (h.once v t d hlow hve hd), fun htr hk => h.high htr t d hk hd, hfresh⟩
  have hrec : ∀ {s'' : Pools}, s''.tasks = update s.tasks t y → s''.pool = s.pool → TaskRec.InUse y →
      Ledger g (taskRefs g s'') (fun _ => 0) none s'' → WinKept s s'' → Sound g none (fun _ => 0) s'' := by
    intro s'' htasks hpool hu hL hW
    refine h.record (fun _ => ht) htasks (fun j => by rw [hpool]) (fun j => by rw [hpool])
      (fun j hj => h.gone j (by rw [← hpool]; exact hj)) hL hW.windows (by rw [hW.fresh]) ?_
      (fun v hv => by rw [update_of_ne hv]) ?_ (fun _ => by rw [hyd]; exact Option.some_ne_none d)
      (fun hc => h.made t (by rw [← hyc]; exact hc)) (fun hlt => absurd hlt (by omega)) (fun w _ hwd => ?_) hyg
    · omega
    · intro e he
      obtain ⟨o1, o2, o3⟩ := hown e he
      exact ⟨by rw [hW.fresh]; exact o3, hu, o1, o2⟩
    · rw [hyd, ← hd]
      exact hwd
  split_ifs with h1 h2
  · refine hrec rfl rfl (.inl h1) ?_ ⟨rfl, rfl⟩
    rw [taskRefs_same (s := s) ht rfl fun e => ?_]
    · exact h.ledger.congr rfl rfl rfl rfl
    · rw [holds_of, holds_of, hyd, hd, hyc]
      simp [h1, hr0]
  · have hrefs : taskRefs g s = bump (taskRefs g { s with tasks := update s.tasks t y }) (some d) := by
      refine taskRefs_less ht rfl fun e => ?_
      rw [not_not] at h1
      rw [holds_of, holds_of, hyd, hd, hyc]
      simp [h1, hr0, eq_comm, Nat.add_comm]
    have hstill : 1 ≤ taskRefs g { s with tasks := update s.tasks t y } d :=
      taskRefs_pos.2 ⟨t, ht, by dsimp only; rw [hyt]; exact hyd, .inr (by dsimp only; rw [hyt]; exact h2)⟩
    have hL : Ledger g (taskRefs g s) (fun _ => 0) none { s with tasks := update s.tasks t y } :=
      h.ledger.congr rfl rfl rfl rfl
    rw [hrefs] at hL
    have hrel := (hL.unsettle (.inl hstill)).domainRelease (Option.some_ne_none d).symm
    have honly := domainRelease_only (g := g) (s := { s with tasks := update s.tasks t y }) (some d)
    refine hrec honly.tasks honly.pool (.inr h2) ?_ ⟨hrel.2.windows, hrel.2.fresh⟩
    rw [taskRefs_congr honly.tasks]
    exact hrel.1
  · rw [not_not] at h1 h2
    generalize hv : ({ s with tasks := update s.tasks t y } : Pools) = v
    have hvt : v.tasks t = y := by
      rw [← hv]
      exact hyt
    obtain ⟨f1, -, f3⟩ := freeTask_frame (g := g) (s := v) t
    have htasks : (v.freeTask g t).tasks = update s.tasks t
        { y with domain := none, creatorTag := killTagNone, gen := y.gen + 1, frees := y.frees + 1 } := by
      rw [f3, hvt, ← hv, update_idem]
    have hpool : (v.freeTask g t).pool = s.pool := by
      rw [f1, ← hv]
    have hrefs : taskRefs g s = bump (taskRefs g (v.freeTask g t)) (some d) := by
      refine taskRefs_less ht htasks fun e => ?_
      rw [holds_of, holds_of, hd, ← hyc, h2]
      simp [hr0, eq_comm]
    have hL : Ledger g (taskRefs g s) (fun _ => 0) none v := by
      rw [← hv]
      exact h.ledger.congr rfl rfl rfl rfl
    rw [hrefs] at hL
    obtain ⟨hL', hW⟩ := h.freeDomain hd (by omega) htasks rfl hL (by rw [← hv]) (by rw [← hv])
    have heq : v.freeTask g t = (v.freeDomain g d).setTask t fun x =>
        { x with domain := none, creatorTag := killTagNone, gen := x.gen + 1, frees := x.frees + 1 } := by
      rw [freeTask, hvt, hyd]
    have hkept : Ledger g (taskRefs g (v.freeTask g t)) (fun _ => 0) none (v.freeTask g t) ∧ WinKept s (v.freeTask g t) := by
      generalize taskRefs g (v.freeTask g t) = R at hL'
      rw [heq]
      exact ⟨hL'.congr rfl rfl rfl rfl, hW.windows.trans (by rw [← hv]), hW.fresh.trans (by rw [← hv])⟩
    refine h.record (fun _ => ht) htasks (fun j => by rw [hpool]) (fun j => by rw [hpool])
      (fun j hj => h.gone j (by rw [← hpool]; exact hj)) hkept.1 hkept.2.windows (by rw [hkept.2.fresh]) ?_
      (fun u hu => by rw [update_of_ne hu]) (fun e he => by cases he) ?_ (fun hk => absurd rfl hk)
      (fun hlt => absurd hlt (by omega)) ?_ ?_
    · show _ → y.refcount = _
      omega
    · rintro (hk | hk)
      · exact absurd h1 hk
      · exact absurd rfl hk
    · exact fun w hw hwd => absurd rfl (h.no_window hwd (by omega) w hw)
    · show y.gen + 1 = BitVec.ofNat 16 (y.frees + 1)
      rw [hyg, BitVec.ofNat_add]
      rfl

end Pools
end Life
end KickOS
