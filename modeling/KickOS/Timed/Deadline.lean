import KickOS.Timed.Model

/-! A timed wait answers that the time ran out only when it did, and does not wait for a monotonic deadline it knows to
have passed. -/

namespace KickOS.Timed

/-! ### The times -/

section Times

variable {abs : Timespec} {ns : BitVec 64} {left : Int}

theorem nsUntil_zero (h : nsUntil (some ns) abs = some 0) : abs.ns ≤ ns.toNat := by
  unfold nsUntil at h
  split at h
  · cases h
  next hv =>
    obtain ⟨h0, h1⟩ := not_not.1 hv
    have hdiv := Nat.div_add_mod ns.toNat 1000000000
    have hmod := Nat.mod_lt ns.toNat (by decide : 0 < 1000000000)
    unfold Timespec.ns
    dsimp only at h
    split_ifs at h with ha hb hc hd
    · omega
    · cases h
    · omega
    · have h := Option.some.inj h
      omega

theorem nsUntil_pos (h : nsUntil (some ns) abs = some left) (hpos : 0 < left) : (ns.toNat : Int) < abs.ns := by
  unfold nsUntil at h
  split at h
  · cases h
    omega
  next hv =>
    obtain ⟨h0, h1⟩ := not_not.1 hv
    have hdiv := Nat.div_add_mod ns.toNat 1000000000
    have hmod := Nat.mod_lt ns.toNat (by decide : 0 < 1000000000)
    unfold Timespec.ns
    dsimp only at h
    split_ifs at h with ha hb hc hd
    · cases h
      omega
    · unfold int64Max at hc
      omega
    · cases h
      omega
    · cases h
      omega

theorem nsUntil_none (h : nsUntil none abs = some left) : left < 0 := by
  unfold nsUntil at h
  split at h
  · cases h
    decide
  · cases h
    decide

theorem limit_ge {unixNs : Nat} (h : wallNs abs = some unixNs) : min abs.ns latest ≤ limitRealtime unixNs := by
  have hl : (limitRealtime unixNs : Int) = min (unixNs : Int) latest := by
    unfold limitRealtime
    split <;> omega
  rw [hl]
  unfold wallNs at h
  split at h
  · cases h
  next hv =>
    obtain ⟨h0, h1⟩ := not_not.1 hv
    unfold Timespec.ns latest
    split_ifs at h with ha hb
    · cases h
      omega
    · cases h
      omega
    · cases h
      omega

theorem wallNs_of_valid (h : nsecValid abs) : (wallNs abs).isSome := by
  unfold wallNs
  rw [if_neg (not_not.2 h)]
  split_ifs <;> rfl

theorem valid_of_nsUntil {now : Option (BitVec 64)} (h : nsUntil now abs = some left) (hpos : 0 ≤ left) : nsecValid abs := by
  by_contra hv
  unfold nsUntil at h
  rw [if_pos hv] at h
  cases h
  omega

theorem nsUntil_nonneg (hv : nsecValid abs) (h : nsUntil (some ns) abs = some left) : 0 ≤ left := by
  unfold nsUntil at h
  rw [if_neg (not_not.2 hv)] at h
  dsimp only at h
  split_ifs at h with ha hb hc hd
  · cases h
    omega
  · cases h
    decide
  · cases h
    omega
  · cases h
    omega

theorem usOf_zero : usOf 0 = 0 := by decide

theorem errnoOf_etimedout {rc : Int} : errnoOf rc = .etimedout ↔ rc = etimedout := by
  constructor
  · intro h
    unfold errnoOf at h
    split_ifs at h with _ h2
    exact h2
  · rintro rfl
    decide

end Times

/-! ### The invariant -/

variable {c : Call} {x y : Sys}

/-- A wait of the kernel is for a deadline that had not passed at the reading, or up to the wall-clock one. -/
def LimOk (c : Call) (read : BitVec 64) : Limit → Prop
  | .us n => c.clock = .monotonic ∧ (n ≠ 0 → (read.toNat : Int) < c.abs.ns)
  | .wall unixNs => c.clock = .realtime ∧ min c.abs.ns latest ≤ unixNs

/-- A lock with nothing left is past the deadline. -/
def LeftOk (c : Call) (x : Sys) : Prop :=
  c.clock = .monotonic → nsecValid c.abs ∧ (x.left = 0 → c.abs.ns ≤ x.now.toNat)

/-- A realtime wait that timed out has reached the deadline. -/
def RcOk (c : Call) (high : BitVec 64) (rc : Int) : Prop :=
  c.clock ≠ .other ∧ (c.clock = .realtime → rc = etimedout → min c.abs.ns latest ≤ high.toNat)

def At (c : Call) (x : Sys) : Prop :=
  match x.pc with
  | .begin | .timed | .trapped => True
  | .lock lim | .locking lim _ => LimOk c x.read lim ∧ LeftOk c x
  | .locked rc => RcOk c x.high rc ∧ LeftOk c x
  | .enter lim | .unlock lim | .unlocking lim | .arm lim | .waiting lim => LimOk c x.read lim
  | .relock rc | .relocking rc | .answered rc => RcOk c x.high rc
  | .done e => e = .etimedout → Reached c x

structure Inv (c : Call) (x : Sys) : Prop where
  wall_le : x.wall.toNat ≤ x.high.toNat
  here : At c x

theorem LimOk.clock_ne {read : BitVec 64} {lim : Limit} (h : LimOk c read lim) : c.clock ≠ .other := by
  intro hc
  cases lim with
  | us n =>
    have h := h.1
    rw [hc] at h
    cases h
  | wall unixNs =>
    have h := h.1
    rw [hc] at h
    cases h

theorem LimOk.rc {read high : BitVec 64} {lim : Limit} {rc : Int} (h : LimOk c read lim) (hrc : rc ≠ etimedout) :
    RcOk c high rc :=
  ⟨h.clock_ne, fun _ heq => absurd heq hrc⟩

theorem LimOk.rc_of_timely {lim : Limit} {rc : Int} (h : LimOk c x.read lim) (ht : x.Timely lim rc)
    (hw : x.wall.toNat ≤ x.high.toNat) : RcOk c x.high rc := by
  refine ⟨h.clock_ne, ?_⟩
  intro hclock hrc
  cases lim with
  | us n =>
    have h := h.1
    rw [hclock] at h
    cases h
  | wall unixNs =>
    obtain ⟨-, hle⟩ := h
    have hreached : unixNs ≤ x.wall.toNat := ht hrc
    omega

theorem RcOk.monotonic {high : BitVec 64} {rc : Int} (h : RcOk c high rc) (hc : c.clock ≠ .realtime) : c.clock = .monotonic := by
  cases hclock : c.clock with
  | monotonic => rfl
  | realtime => exact absurd hclock hc
  | other => exact absurd hclock h.1

/-! ### The places -/

section Places

theorem reading_of_nonneg {left : Int} (h : nsUntil (x.reading c) c.abs = some left) (h0 : 0 ≤ left) (hc : c.clock ≠ .realtime) :
    c.clock = .monotonic ∧ nsUntil (some x.now) c.abs = some left := by
  unfold Sys.reading at h
  cases hclock : c.clock with
  | monotonic =>
    rw [hclock] at h
    exact ⟨rfl, h⟩
  | realtime => exact absurd hclock hc
  | other =>
    rw [hclock] at h
    have hneg := nsUntil_none h
    omega

theorem limOk_of_left {left : Int} (hc : c.clock = .monotonic) (h : nsUntil (some x.now) c.abs = some left) (h0 : 0 ≤ left) :
    LimOk c x.now (.us (usOf left)) := by
  refine ⟨hc, ?_⟩
  intro hne
  rcases h0.eq_or_lt with hz | hpos
  · rw [← hz, usOf_zero] at hne
    exact absurd rfl hne
  · exact nsUntil_pos h hpos

theorem leftOk_of_left {left : Int} {pc : Pc} (h : nsUntil (some x.now) c.abs = some left) (h0 : 0 ≤ left) :
    LeftOk c { x.looked left with pc := pc } := by
  intro _
  refine ⟨valid_of_nsUntil h h0, ?_⟩
  intro hz
  have hz : left = 0 := hz
  rw [hz] at h
  exact nsUntil_zero h

theorem reached_of_zero {pc : Pc} (h : nsUntil (x.reading c) c.abs = some 0) (hw : x.wall.toNat ≤ x.high.toNat) :
    Reached c { x.looked 0 with pc := pc } := by
  unfold Sys.reading at h
  unfold Reached
  cases hclock : c.clock with
  | monotonic =>
    rw [hclock] at h
    exact nsUntil_zero h
  | realtime =>
    rw [hclock] at h
    have hle := nsUntil_zero h
    have hmin := min_le_left c.abs.ns (latest : Int)
    simp only [Sys.looked]
    omega
  | other =>
    rw [hclock] at h
    have hneg := nsUntil_none h
    omega

theorem at_condTimed (hw : x.wall.toNat ≤ x.high.toNat) (hs : x.condTimed c = some y) : At c y := by
  unfold Sys.condTimed at hs
  rw [Option.map_eq_some_iff] at hs
  obtain ⟨left, hleft, rfl⟩ := hs
  split_ifs with h0 hz hrt
  · intro he
    cases he
  · intro _
    rw [hz] at hleft ⊢
    exact reached_of_zero hleft hw
  · obtain ⟨unixNs, hwall⟩ := Option.isSome_iff_exists.1 (wallNs_of_valid (valid_of_nsUntil hleft (by omega)))
    rw [hwall]
    exact ⟨hrt, limit_ge hwall⟩
  · obtain ⟨hc, hread⟩ := reading_of_nonneg hleft (by omega) hrt
    exact limOk_of_left hc hread (by omega)

theorem at_timedTake (hs : x.timedTake c = some y) : At c y := by
  unfold Sys.timedTake at hs
  split at hs
  next hrt =>
    split at hs
    · cases hs
      intro he
      cases he
    next unixNs hwall =>
      cases hs
      refine ⟨⟨hrt, limit_ge hwall⟩, ?_⟩
      intro hm
      rw [hrt] at hm
      cases hm
  next hrt =>
    rw [Option.map_eq_some_iff] at hs
    obtain ⟨left, hleft, rfl⟩ := hs
    split
    · intro he
      cases he
    next h0 =>
      obtain ⟨hc, hread⟩ := reading_of_nonneg hleft (by omega) hrt
      exact ⟨limOk_of_left hc hread (by omega), leftOk_of_left hread (by omega)⟩

/-- A realtime lock that timed out has its deadline behind it, a monotonic one asks the clock once more. -/
theorem at_timedAgain {rc : Int} (hw : x.wall.toNat ≤ x.high.toNat) (hrc : RcOk c x.high rc) (hl : LeftOk c x)
    (hs : x.timedAgain c rc = some y) : At c y := by
  unfold Sys.timedAgain at hs
  split at hs
  next hend =>
    cases hs
    intro he
    have he := errnoOf_etimedout.1 he
    unfold Reached
    cases hclock : c.clock with
    | monotonic =>
      rcases hend with hrt | hne | hz
      · rw [hclock] at hrt
        cases hrt
      · exact absurd he hne
      · exact (hl hclock).2 hz
    | realtime => exact hrc.2 hclock he
    | other => exact hrc.1 hclock
  next hgo =>
    obtain ⟨hrt, -⟩ := not_or.1 hgo
    rw [Option.map_eq_some_iff] at hs
    obtain ⟨left, hleft, rfl⟩ := hs
    split
    next hz =>
      intro _
      rw [hz] at hleft ⊢
      exact reached_of_zero hleft hw
    next hz =>
      have hc : c.clock = .monotonic := hrc.monotonic hrt
      have hread : nsUntil (some x.now) c.abs = some left := by
        unfold Sys.reading at hleft
        rw [hc] at hleft
        exact hleft
      have h0 := nsUntil_nonneg (hl hc).1 hread
      exact ⟨limOk_of_left hc hread h0, leftOk_of_left hread h0⟩

theorem at_condAgain {rc : Int} (hw : x.wall.toNat ≤ x.high.toNat) (hrc : RcOk c x.high rc) (hs : x.condAgain c rc = some y) :
    At c y := by
  unfold Sys.condAgain at hs
  split_ifs at hs with hdead hend
  · cases hs
    trivial
  · cases hs
    intro he
    have he := errnoOf_etimedout.1 he
    rcases hend with hrt | hne
    · unfold Reached
      rw [hrt]
      exact hrc.2 hrt he
    · exact absurd (errnoOf_etimedout.2 he) hne
  · rw [Option.map_eq_some_iff] at hs
    obtain ⟨left, hleft, rfl⟩ := hs
    split
    · intro he
      cases he
    next hz =>
      intro _
      rw [not_not.1 hz] at hleft ⊢
      exact reached_of_zero hleft hw

theorem at_go {seen : BitVec 32} (h : Inv c x) (hs : x.go c seen = some y) : At c y := by
  obtain ⟨hw, hat⟩ := h
  unfold Sys.go at hs
  unfold At at hat
  cases hpc : x.pc <;> simp only [hpc] at hs hat
  case begin =>
    cases hk : c.kind <;> simp only [hk] at hs
    case mutex =>
      cases hs
      trivial
    case recursive =>
      cases hs
      unfold At
      split_ifs <;> simp
    case cond => exact at_condTimed hw hs
  case timed => exact at_timedTake hs
  case lock lim =>
    cases hs
    unfold At
    split_ifs
    · exact ⟨hat.1.rc (by decide), hat.2⟩
    · exact ⟨hat.1.rc (by decide), hat.2⟩
    · exact hat
  case locked rc => exact at_timedAgain hw hat.1 hat.2 hs
  case enter lim =>
    cases hs
    exact hat
  case unlock lim =>
    cases hs
    unfold At
    split_ifs
    · exact hat
    · exact hat.rc (by decide)
    · exact hat
  case arm lim =>
    cases hs
    unfold At
    split_ifs
    · exact hat
    · exact hat.rc (by decide)
  case relock waited =>
    cases hs
    unfold At
    split_ifs
    · exact hat
    · exact hat
    · exact ⟨hat.1, fun _ heq => absurd heq (by decide)⟩
    · exact hat
  case answered rc => exact at_condAgain hw hat hs
  all_goals cases hs

theorem at_answer {rc : Int} (h : Inv c x) (hs : x.answer rc = some y) : At c y := by
  obtain ⟨hw, hat⟩ := h
  unfold Sys.answer at hs
  unfold At at hat
  cases hpc : x.pc <;> simp only [hpc] at hs hat
  case locking lim again =>
    split at hs
    next ht =>
      cases hs
      unfold Sys.taken
      split_ifs
      · exact hat
      · trivial
      · exact ⟨hat.1.rc_of_timely ht hw, hat.2⟩
    · cases hs
  case unlocking lim =>
    split at hs
    · cases hs
    next hne =>
      cases hs
      unfold At
      split_ifs
      · exact hat
      · exact hat.rc hne
  case waiting lim =>
    split at hs
    next ht =>
      cases hs
      have hrc : RcOk c x.high (if rc = 1 ∨ rc = eagain then 0 else rc) := by
        split
        · exact hat.rc (by decide)
        · exact hat.rc_of_timely ht hw
      exact hrc
    · cases hs
  case relocking waited =>
    split at hs
    · cases hs
    next hne =>
      cases hs
      unfold At
      split_ifs
      · exact hat
      · exact ⟨hat.1, fun _ heq => absurd heq hne⟩
      · exact hat
  all_goals cases hs

theorem Reached.mono {now high wall : BitVec 64} (h : Reached c x) (hn : x.now.toNat ≤ now.toNat)
    (hh : x.high.toNat ≤ high.toNat) : Reached c { x with now := now, wall := wall, high := high } := by
  unfold Reached at h ⊢
  cases hclock : c.clock <;> simp only [hclock] at h ⊢
  · omega
  · omega

theorem At.mono {now high wall : BitVec 64} (h : At c x) (hn : x.now.toNat ≤ now.toNat) (hh : x.high.toNat ≤ high.toNat) :
    At c { x with now := now, wall := wall, high := high } := by
  have hleft : LeftOk c x → LeftOk c { x with now := now, wall := wall, high := high } := by
    intro hl hc
    obtain ⟨hv, hz⟩ := hl hc
    refine ⟨hv, ?_⟩
    intro h0
    have := hz h0
    simp only
    omega
  have hrcs : ∀ rc, RcOk c x.high rc → RcOk c high rc := by
    intro rc hrc
    refine ⟨hrc.1, ?_⟩
    intro hrt he
    have := hrc.2 hrt he
    omega
  unfold At at h ⊢
  cases hpc : x.pc <;> simp only [hpc] at h ⊢
  case lock lim => exact ⟨h.1, hleft h.2⟩
  case locking lim again => exact ⟨h.1, hleft h.2⟩
  case locked rc => exact ⟨hrcs rc h.1, hleft h.2⟩
  case relock rc => exact hrcs rc h
  case relocking rc => exact hrcs rc h
  case answered rc => exact hrcs rc h
  case done e =>
    intro he
    have hr : Reached c { x with now := now, wall := wall, high := high } := (h he).mono hn hh
    exact hr
  all_goals exact h

end Places

/-! ### A run -/

/-- The steps of the call leave the wall clock and its highest value. -/
def SameWall (x y : Sys) : Prop := y.wall = x.wall ∧ y.high = x.high

theorem sameWall_map {o : Option Int} {f : Int → Sys} (hf : ∀ left, SameWall x (f left)) (hs : o.map f = some y) :
    SameWall x y := by
  rw [Option.map_eq_some_iff] at hs
  obtain ⟨left, -, rfl⟩ := hs
  exact hf left

theorem sameWall_go {seen : BitVec 32} (hs : x.go c seen = some y) : SameWall x y := by
  unfold Sys.go at hs
  cases hpc : x.pc <;> simp only [hpc] at hs
  case begin =>
    cases hk : c.kind <;> simp only [hk] at hs
    case cond =>
      refine sameWall_map ?_ hs
      intro left
      split_ifs <;> exact ⟨rfl, rfl⟩
    all_goals
      cases hs
      exact ⟨rfl, rfl⟩
  case timed =>
    unfold Sys.timedTake at hs
    split at hs
    · split at hs
      · cases hs
        exact ⟨rfl, rfl⟩
      · cases hs
        exact ⟨rfl, rfl⟩
    · refine sameWall_map ?_ hs
      intro left
      split_ifs <;> exact ⟨rfl, rfl⟩
  case locked rc =>
    unfold Sys.timedAgain at hs
    split at hs
    · cases hs
      exact ⟨rfl, rfl⟩
    · refine sameWall_map ?_ hs
      intro left
      split_ifs <;> exact ⟨rfl, rfl⟩
  case answered rc =>
    unfold Sys.condAgain at hs
    split_ifs at hs
    · cases hs
      exact ⟨rfl, rfl⟩
    · cases hs
      exact ⟨rfl, rfl⟩
    · refine sameWall_map ?_ hs
      intro left
      split_ifs <;> exact ⟨rfl, rfl⟩
  all_goals
    cases hs
    try exact ⟨rfl, rfl⟩

theorem sameWall_answer {rc : Int} (hs : x.answer rc = some y) : SameWall x y := by
  unfold Sys.answer at hs
  split at hs
  · split at hs
    · cases hs
      unfold Sys.taken
      split_ifs <;> exact ⟨rfl, rfl⟩
    · cases hs
  · split at hs
    · cases hs
    · cases hs
      exact ⟨rfl, rfl⟩
  · split at hs
    · cases hs
      exact ⟨rfl, rfl⟩
    · cases hs
  · split at hs
    · cases hs
    · cases hs
      exact ⟨rfl, rfl⟩
  · cases hs

theorem SameWall.le (h : SameWall x y) (hw : x.wall.toNat ≤ x.high.toNat) : y.wall.toNat ≤ y.high.toNat := by
  rw [h.1, h.2]
  exact hw

theorem Inv.step {op : Op} (h : Inv c x) (hs : x.step c op = some y) : Inv c y := by
  cases op with
  | run seen => exact ⟨(sameWall_go hs).le h.wall_le, at_go h hs⟩
  | answer rc => exact ⟨(sameWall_answer hs).le h.wall_le, at_answer h hs⟩
  | tick now =>
    dsimp only [Sys.step] at hs
    split at hs
    next hle =>
      cases hs
      exact ⟨h.wall_le, h.here.mono hle le_rfl⟩
    · cases hs
  | set wall =>
    dsimp only [Sys.step] at hs
    cases hs
    split
    next hle => exact ⟨le_rfl, h.here.mono le_rfl hle⟩
    next hlt =>
      have hlt : wall.toNat ≤ x.high.toNat := le_of_not_ge hlt
      exact ⟨hlt, h.here.mono le_rfl le_rfl⟩

theorem Reachable.inv (h : Reachable c x) : Inv c x := by
  induction h with
  | call now wall => exact ⟨le_rfl, trivial⟩
  | step op _ hs ih => exact ih.step hs

/-- Whatever the deadline, the clocks and the answers of the kernel, a timed wait that answers `ETIMEDOUT` has the
deadline of a monotonic or a realtime clock behind it, of a realtime one at least the latest deadline the kernel's limit
holds. And the kernel is asked to wait for a monotonic deadline only if that was ahead at the reading the wait was made
from. -/
theorem timed_waits_keep_deadline (hx : Reachable c x) :
    (x.pc = .done .etimedout → Reached c x) ∧
      ∀ n, (∃ again, x.pc = .locking (.us n) again) ∨ x.pc = .waiting (.us n) → n ≠ 0 → (x.read.toNat : Int) < c.abs.ns := by
  have hat := hx.inv.here
  unfold At at hat
  constructor
  · intro hpc
    rw [hpc] at hat
    exact hat rfl
  · intro n hpc hn
    rcases hpc with ⟨again, hpc⟩ | hpc
    · rw [hpc] at hat
      exact hat.1.2 hn
    · rw [hpc] at hat
      exact hat.2 hn

theorem Reachable.run (ops : List Op) (hx : Reachable c x) (hr : x.run c ops = some y) : Reachable c y := by
  induction ops generalizing x with
  | nil =>
    cases hr
    exact hx
  | cons op ops ih =>
    obtain ⟨z, hs, hr⟩ := Option.bind_eq_some_iff.1 hr
    exact ih (hx.step op hs) hr

/-- A lock with a deadline at one second. -/
def oneSecond : Call := ⟨.mutex, .monotonic, ⟨1, 0, by decide, by decide⟩, 7⟩

/-- Asked for before its deadline, a lock held by another times out when the kernel says so and the clock is past it. -/
theorem timed_waits_keep_deadline_oneSecond :
    ∃ x : Sys, Reachable oneSecond x ∧ x.pc = .done .etimedout ∧ Reached oneSecond x := by
  refine ⟨{ now := 1000000500, wall := 0, pc := .done .etimedout, left := 0, read := 1000000500, high := 0 }, ?_⟩
  have hx : Reachable oneSecond
      { now := 1000000500, wall := 0, pc := .done .etimedout, left := 0, read := 1000000500, high := 0 } :=
    Reachable.run [.run 0, .run 0, .run 5, .tick 1000000500, .answer etimedout, .run 0] (.call 400 0) rfl
  exact ⟨hx, rfl, (timed_waits_keep_deadline hx).1 rfl⟩

/-- A lock with a deadline behind every one the kernel's limit holds. -/
def farRealtime : Call := ⟨.mutex, .realtime, ⟨10000000000, 0, by decide, by decide⟩, 7⟩

/-- The kernel's limit holds no deadline from the year 2262 on, and a wait up to the latest one times out in front of
the deadline. And the monotonic clock goes on between its reading and the wait. -/
theorem timed_waits_miss_deadline :
    (∃ x : Sys, Reachable farRealtime x ∧ x.pc = .done .etimedout ∧ (x.high.toNat : Int) < farRealtime.abs.ns) ∧
      ∃ x : Sys, Reachable oneSecond x ∧ x.pc = .locking (.us 1000000) false ∧ oneSecond.abs.ns ≤ x.now.toNat := by
  constructor
  · have hx : Reachable farRealtime
        { now := 0, wall := BitVec.ofNat 64 latest, pc := .done .etimedout, left := 0, high := BitVec.ofNat 64 latest } :=
      Reachable.run [.run 0, .run 0, .run 5, .answer etimedout, .run 0] (.call 0 (BitVec.ofNat 64 latest)) rfl
    exact ⟨_, hx, rfl, by decide⟩
  · have hx : Reachable oneSecond
        { now := 1000000000, wall := 0, pc := .locking (.us 1000000) false, left := 1000000000, high := 0 } :=
      Reachable.run [.run 0, .run 0, .tick 1000000000, .run 5] (.call 0 0) rfl
    exact ⟨_, hx, rfl, by decide⟩

end KickOS.Timed
