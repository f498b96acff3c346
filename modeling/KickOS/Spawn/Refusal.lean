import KickOS.Spawn.Locked
import KickOS.Spawn.Unwind

/-! A refused spawn leaves no trace. -/

namespace KickOS
namespace Spawn
open Life

variable {b : Board} {m m' : Machine} {c tk i base width : Nat} {a : Ask} {g h : Seat}

/-! ### The references -/

namespace Machine

/-- The machine without the flag of its assertions. -/
def calm (m : Machine) : Machine := { m with base := { m.base with faulted := false } }

/-- What a reference of a grant counts on, `ref_counters`. -/
inductive Counter where
  | irq (x : Nat)
  | endpoint (e : Eid)
  | notify (n : Nid)

def counter (m : Machine) (g : Seat) : Option Counter :=
  match g.type with
  | .irq => (m.irqs.liveIndex g.obj).map .irq
  | .endpoint => (m.base.endpoints.liveIndex g.obj).map .endpoint
  | .notify => (m.base.notifies.liveIndex g.obj).map .notify
  | _ => none

/-- `obj_ref_inc` past its ceilings. -/
def bump (m : Machine) (r : Rights) : Option Counter → Machine
  | none => m
  | some (.irq x) => { m with irqs := m.irqs.setRefs x (m.irqs.refs x + 1) }
  | some (.endpoint e) => { m with base := m.base.moveRefs e r (· + 1) }
  | some (.notify n) =>
    { m with base := { m.base with notifies := m.base.notifies.setRefs n (m.base.notifies.refs n + 1) } }

/-- `obj_ref_undo` of a counter. -/
def unbump (m : Machine) (r : Rights) : Option Counter → Machine
  | none => m
  | some (.irq x) => { m with irqs := m.irqs.setRefs x (m.irqs.refs x - 1) }
  | some (.endpoint e) => { m with base := m.base.moveRefs e r (· - 1) }
  | some (.notify n) =>
    { m with base := { m.base with notifies := m.base.notifies.setRefs n (m.base.notifies.refs n - 1) } }

def credit (m : Machine) (g : Seat) : Machine := m.bump g.rights (m.counter g)

theorem objRefInc_credit (hi : m.objRefInc g = some m') : m' = m.credit g := by
  obtain ⟨type, obj, rights, badge, dest⟩ := g
  cases type
  case irq =>
    simp only [objRefInc, if_true] at hi
    simp only [credit, counter]
    cases hl : m.irqs.liveIndex obj with
    | none => rw [hl] at hi; exact (Option.some.inj hi).symm
    | some x =>
      rw [hl] at hi
      dsimp only at hi
      split_ifs at hi
      exact (Option.some.inj hi).symm
  case endpoint =>
    simp only [objRefInc, Kernel.objRefInc, reduceCtorEq, if_false] at hi
    simp only [credit, counter]
    cases hl : m.base.endpoints.liveIndex obj with
    | none => rw [hl] at hi; exact (Option.some.inj hi).symm
    | some e =>
      rw [hl] at hi
      dsimp only at hi
      split_ifs at hi
      · simp at hi
      · exact (Option.some.inj hi).symm
  case notify =>
    simp only [objRefInc, Kernel.objRefInc, reduceCtorEq, if_false] at hi
    simp only [credit, counter]
    cases hl : m.base.notifies.liveIndex obj with
    | none => rw [hl] at hi; exact (Option.some.inj hi).symm
    | some n =>
      rw [hl] at hi
      dsimp only at hi
      split_ifs at hi
      · simp at hi
      · exact (Option.some.inj hi).symm
  all_goals exact (Option.some.inj hi).symm

theorem setRefs_comm (p : Pool) (x y : Nat) : (p.setRefs x (p.refs x + 1)).setRefs y ((p.setRefs x (p.refs x + 1)).refs y + 1) =
    (p.setRefs y (p.refs y + 1)).setRefs x ((p.setRefs y (p.refs y + 1)).refs x + 1) := by
  by_cases hxy : x = y
  · rw [hxy]
  · simp only [Pool.setRefs, Function.update_of_ne hxy, Function.update_of_ne (Ne.symm hxy)]
    rw [Function.update_comm hxy]

theorem setRefs_undo (p : Pool) (x : Nat) :
    (p.setRefs x (p.refs x + 1)).setRefs x ((p.setRefs x (p.refs x + 1)).refs x - 1) = p := by
  simp [Pool.setRefs]

theorem moveRefs_comm (k : Kernel) (x y : Eid) (r r' : Rights) :
    (k.moveRefs x r (· + 1)).moveRefs y r' (· + 1) = (k.moveRefs y r' (· + 1)).moveRefs x r (· + 1) := by
  have hep : ((k.moveRefs x r (· + 1)).moveRefs y r' (· + 1)).ep = ((k.moveRefs y r' (· + 1)).moveRefs x r (· + 1)).ep := by
    by_cases hxy : x = y
    · subst hxy
      simp only [Kernel.moveRefs, Kernel.onEp, Function.update_self, Function.update_idem]
      congr 1
      cases r.wait <;> cases r'.wait <;> cases r.handout <;> cases r'.handout <;> rfl
    · simp only [Kernel.moveRefs, Kernel.onEp, Function.update_of_ne hxy, Function.update_of_ne (Ne.symm hxy)]
      rw [Function.update_comm hxy]
  have hrefs : ((k.moveRefs x r (· + 1)).moveRefs y r' (· + 1)).endpoints =
      ((k.moveRefs y r' (· + 1)).moveRefs x r (· + 1)).endpoints := setRefs_comm k.endpoints x y
  show { k with endpoints := _, ep := _ } = ({ k with endpoints := _, ep := _ } : Kernel)
  congr 1

theorem moveRefs_undo (k : Kernel) (e : Eid) (r : Rights) : (k.moveRefs e r (· + 1)).moveRefs e r (· - 1) = k := by
  have hep : ((k.moveRefs e r (· + 1)).moveRefs e r (· - 1)).ep = k.ep := by
    simp only [Kernel.moveRefs, Kernel.onEp, Function.update_self, Function.update_idem]
    refine Function.update_eq_self_iff.2 ?_
    cases r.wait <;> cases r.handout <;> rfl
  have hrefs : ((k.moveRefs e r (· + 1)).moveRefs e r (· - 1)).endpoints = k.endpoints := setRefs_undo k.endpoints e
  show { k with endpoints := _, ep := _ } = k
  rw [show k = { k with endpoints := k.endpoints, ep := k.ep } from rfl]
  congr 1

theorem counter_bump (m : Machine) (r : Rights) (x : Option Counter) (g : Seat) : (m.bump r x).counter g = m.counter g := by
  obtain ⟨type, obj, rights, badge, dest⟩ := g
  rcases x with _ | x | e | n <;> cases type <;> rfl

theorem bump_comm (m : Machine) (r r' : Rights) (x y : Option Counter) :
    (m.bump r x).bump r' y = (m.bump r' y).bump r x := by
  rcases x with _ | x | x | x <;> rcases y with _ | y | y | y <;> try rfl
  · exact congrArg (fun p => ({ m with irqs := p } : Machine)) (setRefs_comm m.irqs x y)
  · exact congrArg (fun k => ({ m with base := k } : Machine)) (moveRefs_comm m.base x y r r')
  · exact congrArg (fun p => ({ m with base := { m.base with notifies := p } } : Machine)) (setRefs_comm m.base.notifies x y)

theorem credit_comm (m : Machine) (g h : Seat) : (m.credit g).credit h = (m.credit h).credit g := by
  unfold credit
  rw [counter_bump, counter_bump, bump_comm]

theorem objRefUndo_unbump (m : Machine) (g : Seat) : (m.objRefUndo g).calm = (m.unbump g.rights (m.counter g)).calm := by
  obtain ⟨type, obj, rights, badge, dest⟩ := g
  cases type <;> simp only [objRefUndo, Kernel.objRefUndo, counter, if_true, reduceCtorEq, if_false]
  case irq => cases m.irqs.liveIndex obj <;> rfl
  case endpoint => cases m.base.endpoints.liveIndex obj <;> rfl
  case notify => cases m.base.notifies.liveIndex obj <;> rfl
  all_goals rfl

theorem bump_unbump (m : Machine) (r : Rights) : ∀ x : Option Counter, (m.bump r x).unbump r x = m
  | none => rfl
  | some (.irq x) => congrArg (fun p => ({ m with irqs := p } : Machine)) (setRefs_undo m.irqs x)
  | some (.endpoint e) => congrArg (fun k => ({ m with base := k } : Machine)) (moveRefs_undo m.base e r)
  | some (.notify n) =>
    congrArg (fun p => ({ m with base := { m.base with notifies := p } } : Machine)) (setRefs_undo m.base.notifies n)

theorem credit_undo (m : Machine) (g : Seat) : ((m.credit g).objRefUndo g).calm = m.calm := by
  rw [objRefUndo_unbump, credit, counter_bump, bump_unbump]

theorem undo_calm (m : Machine) (g : Seat) : (m.calm.objRefUndo g).calm = (m.objRefUndo g).calm := by
  obtain ⟨type, obj, rights, badge, dest⟩ := g
  cases type <;> simp only [objRefUndo, Kernel.objRefUndo, calm, if_true, reduceCtorEq, if_false]
  case irq => cases m.irqs.liveIndex obj <;> rfl
  case endpoint => cases m.base.endpoints.liveIndex obj <;> rfl
  case notify => cases m.base.notifies.liveIndex obj <;> rfl

theorem undo_congr (h : m.calm = m'.calm) (g : Seat) : (m.objRefUndo g).calm = (m'.objRefUndo g).calm := by
  rw [← undo_calm m g, h, undo_calm m' g]

theorem undoAll_congr : ∀ (l : List Seat) (m m' : Machine), m.calm = m'.calm →
    (l.foldl objRefUndo m).calm = (l.foldl objRefUndo m').calm
  | [], _, _, h => h
  | g :: l, _, _, h => undoAll_congr l _ _ (undo_congr h g)

theorem creditAll_comm : ∀ (l : List Seat) (m : Machine) (g : Seat), l.foldl credit (m.credit g) = (l.foldl credit m).credit g
  | [], _, _ => rfl
  | h :: l, m, g => by rw [List.foldl_cons, credit_comm m g h, creditAll_comm l (m.credit h) g, List.foldl_cons]

theorem creditAll_undo : ∀ (l : List Seat) (m : Machine), (l.foldl objRefUndo (l.foldl credit m)).calm = m.calm
  | [], _ => rfl
  | g :: l, m => by
    rw [List.foldl_cons, List.foldl_cons, creditAll_comm, undoAll_congr l _ _ (credit_undo (l.foldl credit m) g),
      creditAll_undo l m]

theorem grantRefs_error : ∀ (rest done : List Seat) (m m' : Machine), grantRefs done rest (done.foldl credit m) = .error m' →
    m'.calm = m.calm
  | [], done, m, m', h => by cases h
  | g :: rest, done, m, m', h => by
    rw [grantRefs] at h
    cases hi : (done.foldl credit m).objRefInc g with
    | none =>
      rw [hi] at h
      cases h
      exact creditAll_undo done m
    | some u =>
      rw [hi, objRefInc_credit hi] at h
      refine grantRefs_error rest (done ++ [g]) m m' ?_
      rwa [List.foldl_append]

theorem grantRefs_ok : ∀ (rest done : List Seat) (m m' : Machine), grantRefs done rest m = .ok m' → m' = rest.foldl credit m
  | [], _, _, _, h => by cases h; rfl
  | g :: rest, done, m, m', h => by
    rw [grantRefs] at h
    cases hi : m.objRefInc g with
    | none => rw [hi] at h; cases h
    | some u =>
      rw [hi, objRefInc_credit hi] at h
      exact grantRefs_ok rest (done ++ [g]) _ _ h

/-! ### The outcomes of a spawn -/

/-- Nothing beyond the thread pool tells a refused spawn, the order of the free chunks apart. -/
structure Undone (m m' : Machine) : Prop where
  base : { m'.base with faulted := false } = { m.base with faulted := false }
  irqs : m'.irqs = m.irqs
  members : m'.members = m.members
  capRuns : m'.capRuns = m.capRuns
  slab : m.slab.Restored m'.slab

theorem Undone.of_calm {u : Machine} (m' : Machine) (h : u.calm = m.calm) {s : Slab} (hs : m'.slab.Restored s)
    (hb : m'.base = m.base)
    (hi : m'.irqs = m.irqs) (hm : m'.members = m.members) (hc : m'.capRuns = m.capRuns) {p : Pools} :
    Undone m' { u with slab := s, pools := p } where
  base := (congrArg Machine.base h).trans (by rw [hb]; rfl)
  irqs := (congrArg Machine.irqs h).trans hi.symm
  members := (congrArg Machine.members h).trans hm.symm
  capRuns := (congrArg Machine.capRuns h).trans hc.symm
  slab := hs

theorem spawnRun_cases (hb : m.slab.Bare i) (hl : kcapChunksFor width ≤ b.dirLength) (c tk base : Nat) (owned : Bool)
    (a : Ask) (seats : List Seat) :
    (∃ e m', m.spawnRun b c tk i base owned a width seats = (m', .error e) ∧
      m'.pools = m.pools.spawnUnwind b.geometry tk i (if owned then some base else none) ∧ Undone m m') ∨
    ∃ slab h, m.slab.attach b.dirLength i width = (true, slab) ∧
      m.spawnRun b c tk i base owned a width seats =
        ((seats.foldl credit { m with slab := slab }).commit b c tk i base owned a width seats, .ok h) := by
  rw [spawnRun]
  dsimp only
  generalize (if owned then some base else none) = block
  have hsame : Undone m (m.spawnUnwind b tk i block) := ⟨rfl, rfl, rfl, rfl, .refl _⟩
  by_cases h1 : a.strided = false
  · rw [if_pos h1]
    exact .inl ⟨_, _, rfl, rfl, hsame⟩
  rw [if_neg h1]
  cases h2 : a.args with
  | some e => exact .inl ⟨_, _, rfl, rfl, hsame⟩
  | none =>
    dsimp only
    by_cases h3 : a.expressible = false
    · rw [if_pos h3]
      exact .inl ⟨_, _, rfl, rfl, hsame⟩
    rw [if_neg h3]
    rcases hat : m.slab.attach b.dirLength i width with ⟨_ | _, slab⟩
    · have hslab : slab = m.slab := by
        rcases Nat.lt_or_ge m.slab.free.length (kcapChunksFor width) with hc | hc
        · rw [Slab.attach_short hb hl hc] at hat
          exact (Prod.mk.inj hat).2.symm
        · rw [Slab.attach_full _ hb hc] at hat
          exact absurd (Prod.mk.inj hat).1 (by simp)
      subst hslab
      exact .inl ⟨_, _, rfl, rfl, hsame⟩
    · have hback := Slab.attach_detach hb hl hat
      have hun : Undone m ((({ m with slab := slab } : Machine).detach b i).spawnUnwind b tk i block) := ⟨rfl, rfl,
          rfl, rfl, hback⟩
      dsimp only
      split_ifs with h4 h5
      · exact .inl ⟨_, _, rfl, rfl, hun⟩
      · exact .inl ⟨_, _, rfl, rfl, hun⟩
      · rcases hrefs : grantRefs [] seats { m with slab := slab } with u | u
        · have hcalm := grantRefs_error seats [] { m with slab := slab } u hrefs
          have hslab : u.slab = slab := congrArg Machine.slab hcalm
          have hpools : u.pools = m.pools := by
            show u.calm.pools = ({ m with slab := slab } : Machine).calm.pools
            rw [hcalm]
          refine .inl ⟨_, _, rfl, ?_, ?_⟩
          · show u.pools.spawnUnwind b.geometry tk i _ = _
            rw [hpools]
          · refine Undone.of_calm m hcalm (s := u.slab.detach b.dirLength i) ?_ rfl rfl rfl rfl
            rw [hslab]
            exact hback
        · obtain rfl := grantRefs_ok seats [] _ u hrefs
          exact .inr ⟨slab, _, rfl, rfl⟩

/-- The stacks that are free behind a refused spawn: a block of `arch_ram_alloc` stays with the pool. -/
def leftStacks (free : List Nat) (a : Ask) : List Nat := if a.stack = none ∧ free = [] then a.block.toList else free

theorem stackFor_left (q : ThreadPool) (passes : Bool) :
    (∃ q', q.stackFor false (a.life passes) = (none, q') ∧ q' = { q with stackFree := leftStacks q.stackFree a }) ∨
    ∃ base owned q', q.stackFor false (a.life passes) = (some (base, owned), q') ∧
      (if owned then q'.stackPush base else q') = { q with stackFree := leftStacks q.stackFree a } := by
  rw [ThreadPool.stackFor, leftStacks]
  cases hs : a.stack with
  | some x =>
    refine .inr ⟨x, false, q, ?_, ?_⟩
    · simp [Ask.life, hs]
    · simp
  | none =>
    simp only [Ask.life, hs, Bool.false_eq_true, if_false, true_and]
    cases hq : q.stackFree with
    | nil =>
      cases hb : a.block with
      | none =>
        refine .inl ⟨q, rfl, ?_⟩
        simp only [if_true, Option.toList_none, ← hq]
      | some x =>
        refine .inr ⟨x, true, q, rfl, ?_⟩
        simp only [if_true, ThreadPool.stackPush, hq, Option.toList_some]
    | cons x rest =>
      refine .inr ⟨x, true, { q with stackFree := rest }, rfl, ?_⟩
      simp [ThreadPool.stackPush]

theorem spawnUnwind_flat (hf : b.geometry.translating = false) (s : Pools) (tk i base : Nat) (owned : Bool) :
    s.spawnUnwind b.geometry tk i (if owned then some base else none) =
      { s with pool := (if owned then s.pool.stackPush base else s.pool).release i } := by
  unfold Pools.spawnUnwind
  rw [hf]
  cases owned <;> rfl

theorem spawnLocked_cases (hbare : ∀ i q, m.pools.pool.claim = (some i, q) → m.slab.Bare i) (c tk : Nat) (a : Ask) :
    (∃ e, m.spawnLocked b c tk a = (m, .error e)) ∨
    (∃ e m' i q, m.pools.pool.claim = (some i, q) ∧ m.spawnLocked b c tk a = (m', .error e) ∧ Undone m m' ∧
      m'.pools = { m.pools with pool := ({ q with stackFree := leftStacks q.stackFree a } : ThreadPool).release i } ∧
      m'.pools = m.pools.spawn b.geometry c tk (a.life false)) ∨
    ∃ (i : Nat) (q : ThreadPool) (base : Nat) (owned : Bool) (q' : ThreadPool) (slab : Slab) (seats : List Seat) (width h : Nat),
      m.pools.pool.claim = (some i, q) ∧
      q.stackFor false (a.life true) = (some (base, owned), q') ∧ kcapChunksFor width ≤ b.dirLength ∧
      m.slab.attach b.dirLength i width = (true, slab) ∧
      m.spawnLocked b c tk a =
        ((seats.foldl credit { m with pools := { m.pools with pool := q' }, slab := slab }).commit b c tk i base owned a width
          seats, .ok h) := by
  rw [spawnLocked]
  cases h1 : m.spawnAdmit b c a with
  | error e => exact .inl ⟨e, rfl⟩
  | ok u =>
  cases h2 : m.seats b c a with
  | error e => exact .inl ⟨e, rfl⟩
  | ok seats =>
  dsimp only
  by_cases h3 : ¬ (seats.map Seat.dest).Nodup
  · rw [if_pos h3]; exact .inl ⟨_, rfl⟩
  rw [if_neg h3]
  by_cases h4 : (m.base.task tk).ended = true
  · rw [if_pos h4]; exact .inl ⟨_, rfl⟩
  rw [if_neg h4]
  by_cases h5 : b.prioCeiling tk < a.prio
  · rw [if_pos h5]; exact .inl ⟨_, rfl⟩
  rw [if_neg h5]
  cases h6 : a.cores with
  | some e => exact .inl ⟨e, rfl⟩
  | none =>
  dsimp only
  by_cases h7 : spawnCapWidth b a tk < capFirstDynamic + seats.length
  · rw [if_pos h7]; exact .inl ⟨_, rfl⟩
  rw [if_neg h7]
  by_cases h8 : taskAdmit (m.slotsUsed tk) (b.slotBudget tk) (kcapWidthFor (spawnCapWidth b a tk)) = false
  · rw [if_pos h8]; exact .inl ⟨_, rfl⟩
  rw [if_neg h8]
  by_cases h9 : b.dirLength < kcapChunksFor (spawnCapWidth b a tk)
  · rw [if_pos h9]; exact .inl ⟨_, rfl⟩
  rw [if_neg h9]
  by_cases h10 : taskAdmit (m.threadsUsed tk) (b.threadBudget tk) 1 = false
  · rw [if_pos h10]; exact .inl ⟨_, rfl⟩
  rw [if_neg h10]
  rcases hc : m.pools.pool.claim with ⟨_ | i, q⟩
  · exact .inl ⟨_, rfl⟩
  refine .inr ?_
  have hflat := b.flat
  have hb := hbare i q hc
  have hlife : ∀ passes, m.pools.spawn b.geometry c tk (a.life passes) =
      ({ m.pools with pool := q } : Pools).spawnInto b.geometry c tk i (a.life passes) := by
    intro passes
    rw [Pools.spawn, hc]
  dsimp only
  rw [spawnInto, hflat]
  dsimp only
  rcases stackFor_left (a := a) q true with ⟨q', hst, hq'⟩ | ⟨base, owned, q', hst, hq'⟩
  · rw [hst]
    have hpools : ({ m.pools with pool := q' } : Pools).spawnUnwind b.geometry tk i none =
        { m.pools with pool := ({ q with stackFree := leftStacks q.stackFree a } : ThreadPool).release i } := by
      rw [← hq']
      exact spawnUnwind_flat hflat { m.pools with pool := q' } tk i 0 false
    refine .inl ⟨_, _, i, q, rfl, rfl, ⟨rfl, rfl, rfl, rfl, .refl _⟩, hpools, ?_⟩
    rw [hlife, Pools.spawnInto, hflat]
    dsimp only
    rw [show q.stackFor false (a.life false) = (none, q') from hst]
    rfl
  · rw [hst]
    dsimp only
    rcases spawnRun_cases (m := { m with pools := { m.pools with pool := q' } }) hb
      (Nat.le_of_not_lt h9) c tk base owned a seats with ⟨e, m', hrun, hpools, hun⟩ | ⟨slab, h, hat, hrun⟩
    · rw [hrun]
      have hpool : m'.pools = { m.pools with pool := (if owned then q'.stackPush base else q').release i } :=
        hpools.trans (spawnUnwind_flat hflat { m.pools with pool := q' } tk i base owned)
      refine .inl ⟨e, m', i, q, rfl, rfl, ⟨hun.base, hun.irqs, hun.members, hun.capRuns, hun.slab⟩, ?_, ?_⟩
      · rw [hpool, hq']
      · rw [hlife, Pools.spawnInto, hflat]
        dsimp only
        rw [show q.stackFor false (a.life false) = (some (base, owned), q') from hst]
        dsimp only
        rw [if_neg Bool.false_ne_true, if_pos (.inr rfl)]
        exact hpools
    · exact .inr ⟨i, q, base, owned, q', slab, seats, _, h, rfl, hst, Nat.le_of_not_lt h9, hat, hrun⟩

end Machine

/-! ### Slots without an occupant -/

/-- No thread is retired, and no slot is claimed. -/
structure Awake (s s' : Pools) : Prop where
  next : s'.pool.next = s.pool.next
  exited : ∀ k, (s'.pool.slots k).state = .exited → (s.pool.slots k).state = .exited

namespace Awake

variable {g : Geometry} {s s' u : Pools} {t p : Nat}

theorem trans (h : Awake s u) (h' : Awake u s') : Awake s s' :=
  ⟨h'.next.trans h.next, fun k hk => h.exited k (h'.exited k hk)⟩

theorem of_pool (h : s'.pool = s.pool) : Awake s s' := ⟨by rw [h], fun k => by rw [h]; exact id⟩

theorem setSlot {f : Tcb → Tcb} (hf : (f (s.pool.slots c)).state = .exited → (s.pool.slots c).state = .exited) :
    Awake s (s.setSlot c f) := by
  refine ⟨rfl, fun k hk => ?_⟩
  rw [Pools.setSlot, ThreadPool.modify_slots] at hk
  split_ifs at hk with hkc
  · exact hkc ▸ hf hk
  · exact hk

theorem addMembers : Awake s (s.addMembers t) := by
  refine ⟨rfl, fun k hk => ?_⟩
  have hk' : (Pools.addMember t (s.pool.slots k)).state = .exited := hk
  rw [Pools.addMember] at hk'
  split_ifs at hk'
  exact hk'

theorem unhold : Awake s (s.unhold t) := by
  unfold Pools.unhold
  dsimp only
  split_ifs <;> exact ⟨rfl, fun _ => id⟩

theorem freeTask : Awake s (s.freeTask g t) := by
  unfold Pools.freeTask
  cases (s.tasks t).domain with
  | none => exact of_pool rfl
  | some d => exact of_pool (Pools.freeDomain_only (g := g) (s := s) (d := d)).pool

theorem taskDropHold : Awake s (s.taskDropHold g t) := by
  unfold Pools.taskDropHold
  by_cases h0 : (s.tasks t).creatorTag = killTagNone
  · rw [if_pos h0]
    exact of_pool rfl
  · rw [if_neg h0]
    dsimp only
    have hu : Awake s ((s.addMembers t).unhold t) := addMembers.trans unhold
    split_ifs
    · exact hu.trans freeTask
    · exact hu.trans (of_pool (Pools.domainRelease_only _).pool)

theorem orphanLoop : ∀ (fuel : Nat) (s : Pools), Awake s (s.orphanLoop g fuel p)
  | 0, _ => of_pool rfl
  | fuel + 1, s => by
    rw [Pools.orphanLoop]
    cases s.pool.created p with
    | nil => exact of_pool rfl
    | cons t rest => exact taskDropHold.trans (orphanLoop fuel _)

theorem orphanCreatedBy : Awake s (s.taskOrphanCreatedBy g t) := by
  unfold Pools.taskOrphanCreatedBy
  split_ifs
  · exact of_pool rfl
  · exact orphanLoop _ _

theorem exitBegin : Awake s (s.exitBegin g c t) := by
  unfold Pools.exitBegin
  dsimp only
  have h1 : Awake s ((s.setSlot c fun x => { x with dying := true }).exitUnmap g c) := by
    refine Awake.trans (u := s.setSlot c fun x => { x with dying := true }) (setSlot id) ?_
    unfold Pools.exitUnmap
    split_ifs
    · exact (of_pool (Pools.unmapHolder_only _ _).pool).trans (setSlot id)
    · exact of_pool rfl
  generalize (s.setSlot c fun x => { x with dying := true }).exitUnmap g c = u at h1 ⊢
  have h2 : Awake u (u.taskRelease g t).2 := of_pool (Pools.taskRelease_kept t).pool
  have h3 : Awake (u.taskRelease g t).2 ((u.taskRelease g t).2.setSlot c fun x =>
      { x with left := some t, task := if (u.taskRelease g t).1 then none else x.task }) := setSlot id
  exact ((h1.trans h2).trans h3).trans orphanCreatedBy

theorem taskCreateDeclared (a : DomainAsk) (donor : Option Nat) : Awake s (s.taskCreateDeclared g t c a donor) := by
  unfold Pools.taskCreateDeclared
  have hd := Pools.domainFor_only (g := g) (s := s.taskDropHold g t) { a with privileged := false } donor
  rcases hr : (s.taskDropHold g t).domainFor g { a with privileged := false } donor with ⟨_ | d, v⟩
  · rw [hr] at hd
    exact taskDropHold.trans (of_pool hd.pool)
  · rw [hr] at hd
    refine (taskDropHold.trans (of_pool hd.pool)).trans ?_
    dsimp only
    unfold Pools.taskHold
    have hr' : ∀ w : Pools, w.pool = v.pool → Awake v (if w.pool.foreign (killTagForIndex c) = true then w
        else w.addCreated (killTagForIndex c - 1) t) := by
      intro w hw
      split_ifs
      · exact of_pool hw
      · exact ⟨by rw [← hw]; rfl, fun k => by rw [← hw]; exact id⟩
    exact hr' _ (Pools.domainRef_only (s := v.setTask t fun x => x.fill d (v.pool.slots c).stamp) (some d)).pool

end Awake

/-- What a run keeps: the pools are those of the thread lifetimes, the chunks have one place each, and a slot without an
occupant has no table. -/
structure Sound (b : Board) (m : Machine) : Prop where
  life : Life.Reachable b.geometry m.pools
  owned : m.slab.Owned b.dirLength
  bare : ∀ i, m.pools.pool.next ≤ i ∨ (m.pools.pool.slots i).state = .exited → m.slab.Bare i

theorem Sound.lineage (h : Sound b m) : ThreadPool.Lineage b.geometry.threads none m.pools.pool := h.life.kin.1.line

theorem Sound.claim_bare (h : Sound b m) {q : ThreadPool} (hc : m.pools.pool.claim = (some i, q)) : m.slab.Bare i := by
  refine h.bare i ?_
  rw [ThreadPool.claim] at hc
  cases hr : m.pools.pool.reclaimable with
  | nil =>
    rw [hr] at hc
    dsimp only at hc
    split_ifs at hc
    · cases hc
    · exact .inl (le_of_eq (Option.some.inj (Prod.mk.inj hc).1))
  | cons s rest =>
    rw [hr] at hc
    cases hc
    exact .inr (h.lineage.listed i (by rw [hr]; exact List.mem_cons_self)).2.2.1

theorem Sound.awake (h : Sound b m) (hp : Life.Reachable b.geometry m'.pools) (ha : Awake m.pools m'.pools)
    (hs : m'.slab = m.slab) : Sound b m' := by
  refine ⟨hp, hs ▸ h.owned, fun i hi => ?_⟩
  rw [hs]
  refine h.bare i ?_
  rcases hi with hi | hi
  · exact .inl (by rw [← ha.next]; exact hi)
  · exact .inr (ha.exited i hi)

namespace Machine

theorem bump_frame (m : Machine) (r : Rights) (x : Option Counter) : (m.bump r x).pools = m.pools ∧
    (m.bump r x).slab = m.slab := by
  rcases x with _ | x | e | n <;> exact ⟨rfl, rfl⟩

theorem creditAll_frame : ∀ (l : List Seat) (m : Machine), (l.foldl credit m).pools = m.pools ∧ (l.foldl credit m).slab = m.slab
  | [], _ => ⟨rfl, rfl⟩
  | g :: l, m => by
    obtain ⟨h1, h2⟩ := creditAll_frame l (m.credit g)
    obtain ⟨h3, h4⟩ := bump_frame m g.rights (m.counter g)
    exact ⟨h1.trans h3, h2.trans h4⟩

end Machine

theorem Sound.spawn (h : Sound b m) (hc : Pools.Runs m.pools c)
    (htk : (a.into = none ∧ (m.pools.pool.slots c).task = some tk) ∨
      (a.into = some tk ∧ tk < b.geometry.tasks ∧ (m.pools.tasks tk).creatorTag ≠ killTagNone)) :
    Sound b (m.spawnLocked b c tk a).1 := by
  have hlife : ∀ passes, Life.Reachable b.geometry (m.pools.spawn b.geometry c tk (a.life passes)) := fun passes =>
    h.life.step (.spawn m.pools c tk (a.life passes) hc (Nat.zero_le _) (Nat.zero_le _) htk)
  rcases Machine.spawnLocked_cases (b := b) (fun i q hcl => h.claim_bare hcl) c tk a with
    ⟨e, he⟩ | ⟨e, m', i, q, hcl, he, hun, hpools, hsp⟩ | ⟨i, q, base, owned, q', slab, seats, width, hd, hcl, hst, hw, hat, he⟩
  · rw [he]
    exact h
  · rw [he]
    obtain ⟨hret, -⟩ := claim_release h.lineage hcl (Machine.leftStacks q.stackFree a)
    refine ⟨hsp ▸ hlife false, h.owned.congr hun.slab.free hun.slab.rows, fun j hj => ?_⟩
    have hb : m.slab.Bare j := by
      refine h.bare j ?_
      rw [show m'.pools.pool = _ from congrArg Pools.pool hpools, hret.next, hret.folk.state] at hj
      exact hj
    exact fun k => by rw [hun.slab.rows]; exact hb k
  · rw [he]
    obtain ⟨hcp, hcs⟩ := Machine.creditAll_frame seats { m with pools := { m.pools with pool := q' }, slab := slab }
    generalize seats.foldl Machine.credit { m with pools := { m.pools with pool := q' }, slab := slab } = u at hcp hcs
    have hpools : (u.commit b c tk i base owned a width seats).pools = m.pools.spawn b.geometry c tk (a.life true) := by
      show u.pools.spawnCommit c tk i base owned a.driver = _
      rw [hcp, Pools.spawn, hcl]
      dsimp only
      unfold Pools.spawnInto
      rw [b.flat]
      dsimp only
      rw [hst]
      rfl
    obtain ⟨hown, hrows⟩ := h.owned.bare_attach (h.claim_bare hcl) hw hat
    have hslab : (u.commit b c tk i base owned a width seats).slab.rows = slab.rows := by
      show u.slab.rows = _
      rw [hcs]
    have hfree : (u.commit b c tk i base owned a width seats).slab.free = slab.free := by
      show u.slab.free = _
      rw [hcs]
    refine ⟨hpools ▸ hlife true, hown.congr (by rw [hfree]) hslab, fun j hj => ?_⟩
    -- The pool of the commit: the occupant of slot `i` is new, and no other slot changed its state.
    have hq' : ∃ l, q' = { q with stackFree := l } := by
      obtain ⟨l, hl⟩ := Pools.stackFor_pool q false (a.life true)
      rw [hst] at hl
      exact ⟨l, hl⟩
    obtain ⟨l, rfl⟩ := hq'
    have hclaimed := h.lineage.claim hcl
    have hfolk := ThreadPool.claim_folk hcl
    have hnext := Pools.claim_next hcl
    have hpool : ∃ t : Tcb, t.state ≠ .exited ∧ (u.commit b c tk i base owned a width seats).pools.pool =
        ({ q with stackFree := l } : ThreadPool).create i t := by
      refine ⟨{ state := if a.driver then .inactive else .ready
                spawnerTag := killTagForIndex c
                task := some tk
                kstackOwned := owned
                stackBase := base
                stamp := m.pools.births
                spawnedBy := (q.slots c).stamp }, ?_, ?_⟩
      · cases a.driver <;> simp
      · show (u.pools.spawnCommit c tk i base owned a.driver).pool = _
        rw [hcp]
        exact (Pools.taskRef_kept tk).pool
    obtain ⟨t, ht, hpool⟩ := hpool
    have hlists := ThreadPool.childLink_lists (p := ({ q with stackFree := l } : ThreadPool).modify i fun _ => t) t.spawnerTag i
    have hlinks := ThreadPool.childLink_folk (p := ({ q with stackFree := l } : ThreadPool).modify i fun _ => t) t.spawnerTag i
    rw [hpool] at hj
    have hj' : q.next ≤ j ∨ ((({ q with stackFree := l } : ThreadPool).modify i fun _ => t).slots j).state = .exited := by
      rcases hj with hj | hj
      · exact .inl (by rw [ThreadPool.create, hlists.next] at hj; exact hj)
      · exact .inr (by rw [ThreadPool.create, hlinks.state] at hj; exact hj)
    have hji : j ≠ i := by
      rintro rfl
      rcases hj' with hj' | hj'
      · exact absurd hclaimed.lt (by omega)
      · rw [ThreadPool.modify_slots, if_pos rfl] at hj'
        exact ht hj'
    intro k
    rw [hslab, hrows j hji]
    refine h.bare j ?_ k
    rcases hj' with hj' | hj'
    · exact .inl (le_trans hnext hj')
    · rw [ThreadPool.modify_slots, if_neg hji] at hj'
      exact .inr ((hfolk.state j).symm.trans hj')

theorem Sound.exitEnd (h : Sound b m) {t : Nat} (hc : c < m.pools.pool.next) (hs : (m.pools.pool.slots c).state = .running)
    (hd : (m.pools.pool.slots c).dying = true) (ht : (m.pools.pool.slots c).left = some t) : Sound b (m.exitEnd b c t) := by
  obtain ⟨hown, hbare, hrows⟩ := h.owned.detach c
  refine ⟨h.life.step (.exitEnd m.pools c t hc hs hd ht), hown, fun j hj => ?_⟩
  by_cases hjc : j = c
  · exact hjc ▸ hbare
  · have hpool : ((m.pools.exitEnd c t).pool) = (m.pools.setSlot c fun x =>
        { x with task := none, left := none }).pool.retire c :=
      (Pools.taskSweepDone_kept t).pool
    have hstate : ((m.pools.exitEnd c t).pool.slots j).state = (m.pools.pool.slots j).state := by
      rw [hpool, ThreadPool.retire_slots, if_neg hjc, Pools.setSlot, ThreadPool.modify_slots, if_neg hjc]
    have hnext : (m.pools.exitEnd c t).pool.next = m.pools.pool.next := by
      rw [hpool]
      unfold ThreadPool.retire
      dsimp only
      split_ifs <;> rfl
    intro k
    show (m.slab.detach b.dirLength c).rows j k = none
    rw [hrows j hjc]
    refine h.bare j ?_ k
    rcases hj with hj | hj
    · exact .inl (hnext ▸ hj)
    · exact .inr (hstate.symm.trans hj)

theorem Sound.step (h : Sound b m) (hs : Machine.Step b m m') : Sound b m' := by
  cases hs with
  | spawn c tk a hc htk => exact h.spawn hc htk
  | create c t a hc ht ht' hr =>
    exact h.awake (h.life.step (.create m.pools c t a hc ht ht' hr)) (Awake.taskCreateDeclared a _) rfl
  | drop t ht => exact h.awake (h.life.step (.drop m.pools t ht)) Awake.taskDropHold rfl
  | exitBegin c t hc ht => exact h.awake (h.life.step (.exitBegin m.pools c t hc ht)) Awake.exitBegin rfl
  | exitEnd c t hc hs hd ht => exact h.exitEnd hc hs hd ht
  | sched c st hc hs hst =>
    exact h.awake (h.life.step (.sched m.pools c st hc hs hst)) (Awake.setSlot fun hx => absurd hx hst) rfl
  | calls k irqs cells => exact ⟨h.life, ⟨h.owned.nodup, h.owned.apart, h.owned.one, h.owned.short⟩, h.bare⟩

theorem Sound.boot (base : Kernel) (irqs : Pool) (hr : kcapChunksFor b.rootWidth ≤ b.chunks) :
    Sound b (boot b base irqs) := by
  have hempty : (⟨List.range b.chunks, fun _ _ => none, fun _ _ => {}⟩ : Slab).Owned b.dirLength :=
    ⟨List.nodup_range, fun _ _ _ hc => (by cases hc), fun _ _ _ _ _ hc => (by cases hc), fun _ _ _ => rfl⟩
  have hfull := Slab.attach_full (s := ⟨List.range b.chunks, fun _ _ => none, fun _ _ => {}⟩) b.dirLength (i := rootIndex)
    (fun _ => rfl) (show kcapChunksFor b.rootWidth ≤ (List.range b.chunks).length by simpa using hr)
  obtain ⟨hown, hrows⟩ := hempty.bare_attach (fun _ => rfl) b.root_fits hfull
  have hslab : (Spawn.boot b base irqs).slab = _ := congrArg Prod.snd hfull
  refine ⟨.boot, hslab ▸ hown, fun j hj => ?_⟩
  have hj0 : j ≠ rootIndex := by
    rintro rfl
    rcases hj with hj | hj
    · exact absurd hj (by simp [Spawn.boot, Life.boot, rootIndex])
    · exact absurd hj (by simp [Spawn.boot, Life.boot])
  intro k
  rw [hslab, hrows j hj0]

theorem Reachable.sound (h : Reachable b m) : Sound b m := by
  induction h with
  | boot base irqs hr => exact .boot base irqs hr
  | step _ hs ih => exact ih.step hs

/-! ### The refusal -/

/-- Everything a refused spawn leaves as it was. What a task holds of the budgeted object pools is counted over its
members, their tables and the objects, all of which are here. -/
structure NoTrace (b : Board) (a : Ask) (m m' : Machine) : Prop where
  next : m'.pools.pool.next = m.pools.pool.next
  state : ∀ j, (m'.pools.pool.slots j).state = (m.pools.pool.slots j).state
  occupant : ∀ j, (m'.pools.pool.slots j).stamp = (m.pools.pool.slots j).stamp
  reclaimable : m'.pools.pool.reclaimable = m.pools.pool.reclaimable
  gen : m'.pools.pool.gen = m.pools.pool.gen
  genHi : m'.pools.pool.genHi = m.pools.pool.genHi
  resolve : ∀ index gen, m'.pools.pool.resolve index gen = m.pools.pool.resolve index gen
  /-- The objects with their counters, the tasks and the records of the threads. -/
  kernel : { m'.base with faulted := m.base.faulted } = m.base
  irqs : m'.irqs = m.irqs
  chunks : m'.slab.free.Perm m.slab.free
  tasks : m'.pools.tasks = m.pools.tasks
  domains : m'.pools.doms = m.pools.doms
  members : m'.members = m.members
  threadsUsed : ∀ t, m'.threadsUsed t = m.threadsUsed t
  slotsUsed : ∀ t, m'.slotsUsed t = m.slotsUsed t
  tables : ∀ i, m'.table b i = m.table b i
  /-- A thread keeps its spawner, unless that is the exited occupant that was to be replaced. -/
  spawner : ∀ j, (m'.pools.pool.slots j).spawnerTag = (m.pools.pool.slots j).spawnerTag ∨
    ((m'.pools.pool.slots j).spawnerTag = killTagNone ∧
      ∃ i, m.pools.pool.reclaimable.head? = some i ∧ (m.pools.pool.slots j).spawnerTag = killTagForIndex i)
  children : ∀ j, m.pools.pool.reclaimable.head? ≠ some j →
    (m'.pools.pool.slots j).children.Perm (m.pools.pool.slots j).children
  /-- The stack of that occupant and a block it allocated may be on the free list. -/
  stackFree : m'.pools.pool.stackFree = m.pools.pool.stackFree ∨
    m'.pools.pool.stackFree = Machine.leftStacks (claimStacks m.pools.pool) a

theorem NoTrace.refl (b : Board) (a : Ask) (m : Machine) : NoTrace b a m m where
  next := rfl
  state _ := rfl
  occupant _ := rfl
  reclaimable := rfl
  gen := rfl
  genHi := rfl
  resolve _ _ := rfl
  kernel := rfl
  irqs := rfl
  chunks := List.Perm.refl _
  tasks := rfl
  domains := rfl
  members := rfl
  threadsUsed _ := rfl
  slotsUsed _ := rfl
  tables _ := rfl
  spawner _ := .inl rfl
  children _ _ := List.Perm.refl _
  stackFree := .inl rfl

def flatBoard : Board where
  geometry := { Life.smallBoard with translating := false }
  flat := rfl
  dirLength := 2
  chunks := 4
  rootWidth := 8
  root_fits := by decide
  prioMin := 1
  prioMax := 31
  taskWidth _ := 8
  prioCeiling _ := 31
  threadBudget _ := 3
  slotBudget _ := 32

/-- Root of that board runs and has spawned a thread, which runs too. -/
def childRuns : Machine :=
  let root := { boot flatBoard {} {} with pools := (boot flatBoard {} {}).pools.setSlot 0 fun x => { x with state := .running } }
  let m := (root.spawnLocked flatBoard 0 1 { block := some 7 }).1
  { m with pools := m.pools.setSlot 1 fun x => { x with state := .running } }

def childGone : Machine := (childRuns.exitBegin flatBoard 1 1).exitEnd flatBoard 1 1

theorem childGone_reachable : Reachable flatBoard childGone := by
  have hroot := (Reachable.boot (b := flatBoard) {} {} (by decide)).step
    (.sched (boot flatBoard {} {}) 0 .running (by decide) (by decide) (by decide))
  have hspawn := hroot.step (.spawn _ 0 1 { block := some 7 } ⟨by decide, by decide, by decide⟩ (.inl ⟨rfl, by decide⟩))
  have hruns : Reachable flatBoard childRuns := hspawn.step (.sched _ 1 .running (by decide) (by decide) (by decide))
  exact (hruns.step (.exitBegin _ 1 1 ⟨by decide, by decide, by decide⟩ (by decide))).step
    (.exitEnd _ 1 1 (by decide) (by decide) (by decide) (by decide))

/-- Root asks for a stack the thread pointer does not fit. -/
def unfitStack : Ask := { block := some 9, strided := false }

end Spawn
end KickOS
