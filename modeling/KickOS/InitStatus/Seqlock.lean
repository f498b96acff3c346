import Mathlib.Tactic

/-! The status record of the init (`init_status.cc`): three fields behind a count that is odd while they are written.

The init is the one writer; readers copy the fields between two loads of the count. Every load and every store is a step
of its own. Beside the record the state keeps, for the statements only, the writes that were completed and how many were
begun. -/

namespace KickOS.InitStatus

structure StatusFields where
  deaths : BitVec 16 := 0
  restartsLeft : BitVec 8 := 0
  state : BitVec 8 := 0
  deriving DecidableEq

/-- `StatusRecord`, as `StatusWriter::clear` leaves it. -/
structure StatusRecord where
  count : BitVec 32 := 0
  fields : StatusFields := {}

/-- The next step of `status_write`: the writer's constructor, the three stores, its destructor. -/
inductive Writer where
  | idle
  | odd (f : StatusFields)
  | storeOdd (f : StatusFields) (count : BitVec 32)
  | deaths (f : StatusFields)
  | restartsLeft (f : StatusFields)
  | state (f : StatusFields)
  | even (f : StatusFields)
  | storeEven (f : StatusFields) (count : BitVec 32)

/-- The next step of `status_read`, with what it has loaded and the writes that were begun when it loaded the count. -/
inductive Reader where
  | count
  | deaths (before : BitVec 32) (begun : Nat)
  | restartsLeft (before : BitVec 32) (begun : Nat) (deaths : BitVec 16)
  | state (before : BitVec 32) (begun : Nat) (deaths : BitVec 16) (restartsLeft : BitVec 8)
  | again (before : BitVec 32) (begun : Nat) (out : StatusFields)
  /-- Its answer. -/
  | answer (whole : Bool) (out : StatusFields)

structure St where
  record : StatusRecord := {}
  writer : Writer := .idle
  reader : Nat → Option Reader := fun _ => none
  begun : Nat := 0
  /-- The writes that were completed, the last one first. -/
  done : List StatusFields := []

inductive Act where
  | write (f : StatusFields)
  | store
  | read (r : Nat)
  | load (r : Nat)
  deriving DecidableEq

namespace St

variable (x : St)

/-- What the last write left, or the clear. -/
def last : StatusFields := x.done.headD {}

def stores : Option St :=
  match x.writer with
  | .idle => none
  | .odd f => some { x with writer := .storeOdd f x.record.count }
  | .storeOdd f count =>
    some { x with record := { x.record with count := count + 1 }, writer := .deaths f, begun := x.begun + 1 }
  | .deaths f =>
    some { x with record := ⟨x.record.count, { x.record.fields with deaths := f.deaths }⟩, writer := .restartsLeft f }
  | .restartsLeft f =>
    some { x with record := ⟨x.record.count, { x.record.fields with restartsLeft := f.restartsLeft }⟩, writer := .state f }
  | .state f => some { x with record := ⟨x.record.count, { x.record.fields with state := f.state }⟩, writer := .even f }
  | .even f => some { x with writer := .storeEven f x.record.count }
  | .storeEven f count =>
    some { x with record := { x.record with count := count + 1 }, writer := .idle, done := f :: x.done }

/-- A load of a read; fewer than `2 ^ 31` writes are begun between its two loads of the count. -/
def loads : Reader → Option Reader
  | .count =>
    if x.record.count.getLsbD 0 then some (.answer false {}) else some (.deaths x.record.count x.begun)
  | .deaths before begun => some (.restartsLeft before begun x.record.fields.deaths)
  | .restartsLeft before begun deaths => some (.state before begun deaths x.record.fields.restartsLeft)
  | .state before begun deaths restartsLeft => some (.again before begun ⟨deaths, restartsLeft, x.record.fields.state⟩)
  | .again before begun out => if x.begun < begun + 2 ^ 31 then some (.answer (x.record.count == before) out) else none
  | .answer _ _ => none

def step : Act → Option St
  | .write f =>
    match x.writer with
    | .idle => some { x with writer := .odd f }
    | _ => none
  | .store => x.stores
  | .read r => some { x with reader := Function.update x.reader r (some .count) }
  | .load r => ((x.reader r).bind x.loads).map fun p => { x with reader := Function.update x.reader r (some p) }

end St

/-- A run from a record that was cleared. -/
inductive Reachable : St → Prop where
  | clear : Reachable {}
  | step {x y : St} (a : Act) (hx : Reachable x) (hs : x.step a = some y) : Reachable y

/-! ### The writer -/

def St.counted (x : St) : Nat := x.begun + x.done.length

/-- Where the writer is: the count is odd from its first store to its last, and the fields are the last write's outside
of that. -/
def Writer.Ok (x : St) : Writer → Prop
  | .idle => x.begun = x.done.length ∧ x.record.fields = x.last
  | .odd _ => x.begun = x.done.length ∧ x.record.fields = x.last
  | .storeOdd _ count => x.begun = x.done.length ∧ x.record.fields = x.last ∧ count = x.record.count
  | .deaths _ => x.begun = x.done.length + 1
  | .restartsLeft f => x.begun = x.done.length + 1 ∧ x.record.fields.deaths = f.deaths
  | .state f => x.begun = x.done.length + 1 ∧ x.record.fields.deaths = f.deaths ∧ x.record.fields.restartsLeft = f.restartsLeft
  | .even f => x.begun = x.done.length + 1 ∧ x.record.fields = f
  | .storeEven f count => x.begun = x.done.length + 1 ∧ x.record.fields = f ∧ count = x.record.count

/-! ### The readers -/

/-- A reader that loaded the count `before`, when so many writes were begun and completed: what it has copied since is the last
write's where the count was not stored since. -/
structure Copies (x : St) (before : BitVec 32) (begun : Nat) (copied : StatusFields → Prop) : Prop where
  before : before = BitVec.ofNat 32 (2 * begun)
  le : 2 * begun ≤ x.counted
  copied : x.counted = 2 * begun → copied x.last

def Reader.Ok (x : St) : Reader → Prop
  | .count => True
  | .deaths before begun => Copies x before begun fun _ => True
  | .restartsLeft before begun d => Copies x before begun fun l => d = l.deaths
  | .state before begun d r => Copies x before begun fun l => d = l.deaths ∧ r = l.restartsLeft
  | .again before begun out => Copies x before begun fun l => out = l
  | .answer whole out => whole = true → out = {} ∨ out ∈ x.done

structure Inv (x : St) : Prop where
  count : x.record.count = BitVec.ofNat 32 x.counted
  writer : x.writer.Ok x
  readers : ∀ r p, x.reader r = some p → p.Ok x

variable {x y : St}

theorem ofNat_succ (n : Nat) : BitVec.ofNat 32 n + 1 = BitVec.ofNat 32 (n + 1) := (BitVec.ofNat_add ..).symm

theorem Inv.between (h : Inv x) (he : x.begun = x.done.length) : x.record.fields = x.last := by
  have hw := h.writer
  cases hc : x.writer with
  | idle | odd f =>
    rw [hc] at hw
    exact hw.2
  | storeOdd f count =>
    rw [hc] at hw
    exact hw.2.1
  | deaths f =>
    rw [hc] at hw
    exact absurd (he.symm.trans hw) (Nat.lt_succ_self _).ne
  | restartsLeft f | state f | even f | storeEven f count =>
    rw [hc] at hw
    exact absurd (he.symm.trans hw.1) (Nat.lt_succ_self _).ne

theorem Inv.begun_cases (h : Inv x) : x.begun = x.done.length ∨ x.begun = x.done.length + 1 := by
  have hw := h.writer
  cases hc : x.writer with
  | idle | odd f | storeOdd f count =>
    rw [hc] at hw
    exact .inl hw.1
  | deaths f =>
    rw [hc] at hw
    exact .inr hw
  | restartsLeft f | state f | even f | storeEven f count =>
    rw [hc] at hw
    exact .inr hw.1

section Frame

variable {before : BitVec 32} {begun : Nat} {copied : StatusFields → Prop} {p : Reader}

theorem Copies.same (h : Copies x before begun copied) (hb : y.begun = x.begun) (hd : y.done = x.done) :
    Copies y before begun copied := by
  have hc : y.counted = x.counted := by rw [St.counted, hb, hd, St.counted]
  have hl : y.last = x.last := by rw [St.last, hd, St.last]
  exact ⟨h.before, hc ▸ h.le, fun heq => hl ▸ h.copied (hc ▸ heq)⟩

theorem Copies.passed (h : Copies x before begun copied) (hlt : x.counted < y.counted) : Copies y before begun copied := by
  have hle := h.le
  exact ⟨h.before, hle.trans hlt.le, fun heq => absurd hlt (by omega)⟩

theorem Reader.Ok.same (h : p.Ok x) (hb : y.begun = x.begun) (hd : y.done = x.done) : p.Ok y := by
  cases p with
  | count => trivial
  | deaths b n => exact Copies.same h hb hd
  | restartsLeft b n d => exact Copies.same h hb hd
  | state b n d r => exact Copies.same h hb hd
  | again b n out => exact Copies.same h hb hd
  | answer whole out => exact fun hw => hd ▸ h hw

theorem Reader.Ok.passed (h : p.Ok x) (hlt : x.counted < y.counted) (hd : x.done ⊆ y.done) : p.Ok y := by
  cases p with
  | count => trivial
  | deaths b n => exact Copies.passed h hlt
  | restartsLeft b n d => exact Copies.passed h hlt
  | state b n d r => exact Copies.passed h hlt
  | again b n out => exact Copies.passed h hlt
  | answer whole out => exact fun hw => (h hw).imp_right fun hm => hd hm

end Frame

theorem Inv.stores (h : Inv x) (hs : x.stores = some y) : Inv y := by
  have hw := h.writer
  have hcount := h.count
  unfold St.stores at hs
  split at hs
  next hc => cases hs
  next f hc =>
    cases hs
    rw [hc] at hw
    exact ⟨hcount, ⟨hw.1, hw.2, rfl⟩, fun r p hr => (h.readers r p hr).same rfl rfl⟩
  next f count hc =>
    cases hs
    rw [hc] at hw
    obtain ⟨h1, -, rfl⟩ := hw
    refine ⟨?_, congrArg (· + 1) h1, fun r p hr => (h.readers r p hr).passed ?_ fun _ hm => hm⟩
    · dsimp only [St.counted]
      rw [hcount, ofNat_succ, Nat.add_right_comm]
      rfl
    · dsimp only [St.counted]
      omega
  next f hc =>
    cases hs
    rw [hc] at hw
    exact ⟨hcount, ⟨hw, rfl⟩, fun r p hr => (h.readers r p hr).same rfl rfl⟩
  next f hc =>
    cases hs
    rw [hc] at hw
    exact ⟨hcount, ⟨hw.1, hw.2, rfl⟩, fun r p hr => (h.readers r p hr).same rfl rfl⟩
  next f hc =>
    cases hs
    rw [hc] at hw
    obtain ⟨h1, h2, h3⟩ := hw
    refine ⟨hcount, ⟨h1, ?_⟩, fun r p hr => (h.readers r p hr).same rfl rfl⟩
    dsimp only
    rw [h2, h3]
  next f hc =>
    cases hs
    rw [hc] at hw
    exact ⟨hcount, ⟨hw.1, hw.2, rfl⟩, fun r p hr => (h.readers r p hr).same rfl rfl⟩
  next f count hc =>
    cases hs
    rw [hc] at hw
    obtain ⟨h1, h2, rfl⟩ := hw
    refine ⟨?_, ⟨h1, h2⟩, fun r p hr => (h.readers r p hr).passed ?_ (List.subset_cons_self ..)⟩
    · dsimp only [St.counted]
      rw [hcount, ofNat_succ]
      rfl
    · dsimp only [St.counted]
      rw [List.length_cons]
      omega

theorem last_mem (x : St) : x.last = {} ∨ x.last ∈ x.done := by
  unfold St.last
  cases x.done with
  | nil => exact .inl rfl
  | cons f l => exact .inr List.mem_cons_self

theorem Copies.load (h : Inv x) {before : BitVec 32} {begun : Nat} {copied copied' : StatusFields → Prop}
    (hc : Copies x before begun copied) (hl : copied x.record.fields → copied' x.record.fields) :
      Copies x before begun copied' := by
  refine ⟨hc.before, hc.le, fun heq => ?_⟩
  have hfields : x.record.fields = x.last := by
    refine h.between ?_
    have := h.begun_cases
    unfold St.counted at heq
    omega
  rw [← hfields]
  exact hl (hfields ▸ hc.copied heq)

/-- A count that comes back to what it was, after less than a turn, was not stored since, and the copy is the last write's. -/
theorem Inv.again (h : Inv x) {before : BitVec 32} {begun : Nat} {out : StatusFields} (hp : (Reader.again before begun out).Ok x)
    (hfew : x.begun < begun + 2 ^ 31) (hsame : x.record.count = before) : x.done.length = begun ∧ out = x.last := by
  obtain ⟨rfl, hle, hout⟩ := hp
  have hcases := h.begun_cases
  have hmod : x.counted % 2 ^ 32 = 2 * begun % 2 ^ 32 := by
    have := congrArg BitVec.toNat hsame
    rwa [h.count, BitVec.toNat_ofNat, BitVec.toNat_ofNat] at this
  have hlt : x.counted < 2 * begun + 2 ^ 32 := by
    unfold St.counted
    omega
  have heq : x.counted = 2 * begun := by omega
  refine ⟨?_, hout heq⟩
  unfold St.counted at heq
  omega

theorem Inv.loads (h : Inv x) {p q : Reader} (hp : p.Ok x) (hl : x.loads p = some q) : q.Ok x := by
  unfold St.loads at hl
  split at hl
  next =>
    split at hl
    next =>
      cases hl
      exact fun hf => absurd hf Bool.false_ne_true
    next heven =>
      cases hl
      have hcases := h.begun_cases
      have hcounted : x.counted = 2 * x.begun := by
        rw [h.count] at heven
        rcases hcases with hb | hb
        · unfold St.counted
          omega
        · refine absurd ?_ heven
          have hodd : x.counted = 2 * x.done.length + 1 := by
            unfold St.counted
            omega
          rw [hodd, BitVec.getLsbD_ofNat]
          simp
      exact ⟨by rw [h.count, hcounted], hcounted.ge, fun _ => trivial⟩
  next b n =>
    cases hl
    exact Copies.load h hp fun _ => rfl
  next b n d =>
    cases hl
    exact Copies.load h hp fun hd => ⟨hd, rfl⟩
  next b n d r =>
    cases hl
    refine Copies.load h hp fun hd => ?_
    rw [hd.1, hd.2]
  next b n out =>
    split at hl
    next hfew =>
      cases hl
      intro hwhole
      rw [(h.again hp hfew (beq_iff_eq.1 hwhole)).2]
      exact last_mem x
    next => cases hl
  next => cases hl

theorem Inv.step (h : Inv x) {a : Act} (hs : x.step a = some y) : Inv y := by
  have hread : ∀ (r : Nat) (p : Reader), p.Ok x → Inv { x with reader := Function.update x.reader r (some p) } := by
    intro r p hp
    refine ⟨h.count, ?_, fun r' p' hr' => ?_⟩
    · have hw := h.writer
      dsimp only
      cases hc : x.writer with
      | idle | odd f | storeOdd f count | deaths f | restartsLeft f | state f | even f | storeEven f count =>
        rw [hc] at hw
        exact hw
    · rcases eq_or_ne r' r with rfl | hne
      · dsimp only at hr'
        rw [Function.update_self] at hr'
        cases hr'
        exact hp.same rfl rfl
      · dsimp only at hr'
        rw [Function.update_of_ne hne] at hr'
        exact (h.readers r' p' hr').same rfl rfl
  cases a with
  | write f =>
    unfold St.step at hs
    dsimp only at hs
    split at hs
    next hc =>
      cases hs
      have hw := h.writer
      rw [hc] at hw
      exact ⟨h.count, hw, fun r p hr => (h.readers r p hr).same rfl rfl⟩
    next => cases hs
  | store => exact h.stores hs
  | read r =>
    cases hs
    exact hread r .count trivial
  | load r =>
    obtain ⟨q, hq, rfl⟩ := Option.map_eq_some_iff.1 hs
    obtain ⟨p, hp, hl⟩ := Option.bind_eq_some_iff.1 hq
    exact hread r q (h.loads (h.readers r p hp) hl)

theorem Reachable.inv (h : Reachable x) : Inv x := by
  induction h with
  | clear => exact ⟨rfl, ⟨rfl, rfl⟩, fun r p hr => absurd hr (by simp)⟩
  | step a _ hs ih => exact ih.step hs

/-- A read that answers true has the fields of one completed write, or of the cleared record: of the last one when it
loaded the count again, with no other completed since it did so first. The count is even while no write is under way. -/
theorem status_read_whole (h : Reachable x) :
    (∀ r out, x.reader r = some (.answer true out) → out = {} ∨ out ∈ x.done) ∧
    (∀ r before begun out y, x.reader r = some (.again before begun out) → x.step (.load r) = some y →
      y.reader r = some (.answer true out) → x.done.length = begun ∧ out = x.last) ∧
    (x.writer = .idle → x.record.count.getLsbD 0 = false) := by
  have hi := h.inv
  refine ⟨fun r out hr => hi.readers r _ hr rfl, fun r before begun out y hr hs hy => ?_, fun hidle => ?_⟩
  · obtain ⟨q, hq, rfl⟩ := Option.map_eq_some_iff.1 hs
    rw [hr, Option.bind_some] at hq
    dsimp only at hy
    rw [Function.update_self] at hy
    cases hy
    unfold St.loads at hq
    dsimp only at hq
    split at hq
    next hfew =>
      obtain ⟨hwhole, -⟩ := Reader.answer.inj (Option.some.inj hq)
      exact hi.again (hi.readers r _ hr) hfew (beq_iff_eq.1 hwhole)
    next => cases hq
  have hw := hi.writer
  rw [hidle] at hw
  have heven : x.counted = 2 * x.done.length := by
    have := hw.1
    unfold St.counted
    omega
  rw [hi.count, heven, BitVec.getLsbD_ofNat]
  simp

def St.run (x : St) (acts : List Act) : Option St := acts.foldlM St.step x

theorem Reachable.run {acts : List Act} (h : Reachable x) (hr : x.run acts = some y) : Reachable y := by
  induction acts generalizing x with
  | nil =>
    cases hr
    exact h
  | cons a acts ih =>
    unfold St.run at hr
    rw [List.foldlM_cons] at hr
    obtain ⟨z, hz, hr⟩ := Option.bind_eq_some_iff.1 hr
    exact ih (.step a h hz) hr

/-- A read behind one write and in front of the next one, which stands before its first store, up to the count's second load. -/
def readBetween : List Act :=
  .write ⟨3, 2, 1⟩ :: List.replicate 7 .store ++ [.write ⟨4, 1, 0⟩, .store, .read 0] ++ List.replicate 4 (.load 0)

/-- Where a reader has what a write left and looks at the count again. -/
def Reader.closes : Reader → Bool
  | .again before begun out => before == 2 && begun == 1 && out == ⟨3, 2, 1⟩
  | _ => false

theorem status_read_whole_between : ∃ x y, Reachable x ∧ x.step (.load 0) = some y ∧ y.reader 0 = some (.answer true ⟨3, 2, 1⟩) ∧
    (⟨3, 2, 1⟩ = ({} : StatusFields) ∨ ⟨3, 2, 1⟩ ∈ y.done) ∧ x.done.length = 1 ∧ ⟨3, 2, 1⟩ = x.last := by
  have hex : ((({} : St).run readBetween).map fun x => (x.reader 0).any Reader.closes && x.record.count == 2 && x.begun == 1) =
      some true := by decide +kernel
  obtain ⟨x, hx, ht⟩ := Option.map_eq_some_iff.1 hex
  simp only [Bool.and_eq_true, beq_iff_eq] at ht
  obtain ⟨⟨hp, hcount⟩, hbegun⟩ := ht
  obtain ⟨p, hp, hcloses⟩ := Option.any_eq_true _ _ |>.1 hp
  have hr := Reachable.clear.run hx
  cases p with
  | again before begun out =>
    obtain ⟨⟨rfl, rfl⟩, rfl⟩ : (before = 2 ∧ begun = 1) ∧ out = ⟨3, 2, 1⟩ := by simpa [Reader.closes] using hcloses
    have hs : x.step (.load 0) =
        some { x with reader := Function.update x.reader 0 (some (.answer true ⟨3, 2, 1⟩)) } := by
      simp [St.step, hp, St.loads, hcount, hbegun]
    have hy : Function.update x.reader 0 (some (.answer true ⟨3, 2, 1⟩)) 0 = some (.answer true ⟨3, 2, 1⟩) :=
        Function.update_self ..
    exact ⟨x, _, hr, hs, hy, (status_read_whole (hr.step _ hs)).1 0 _ hy, (status_read_whole hr).2.1 0 2 1 _ _ hp hs hy⟩
  | count | deaths | restartsLeft | state | answer => cases hcloses

end KickOS.InitStatus
