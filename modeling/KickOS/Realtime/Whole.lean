import KickOS.Realtime.Model

/-! Reads are never torn: while `seq` names a value, its own set is the last to have written it. -/

namespace KickOS.Realtime
open Function (update update_of_ne update_self)

variable {n i j c : Nat} {x y : St} {s s' : Scan} {q : BitVec 32}

/-! ### Words -/

theorem parity_succ (q : BitVec 32) : parity (q + 1) = !parity q := by
  unfold parity
  rw [BitVec.getLsbD, BitVec.getLsbD, BitVec.toNat_add, Nat.testBit_zero, Nat.testBit_zero]
  have h1 : (1 : BitVec 32).toNat = 1 := rfl
  rw [h1]
  rcases Nat.mod_two_eq_zero_or_one q.toNat with h | h
  · rw [h, show (q.toNat + 1) % 2 ^ 32 % 2 = 1 by omega]
    rfl
  · rw [h, show (q.toNat + 1) % 2 ^ 32 % 2 = 0 by omega]
    rfl

theorem ofNat_eq_iff {a b : Nat} (hab : a ≤ b) (hb : b < a + 2 ^ 32) : BitVec.ofNat 32 b = BitVec.ofNat 32 a ↔ b = a := by
  refine ⟨fun h => ?_, fun h => by rw [h]⟩
  have := congrArg BitVec.toNat h
  rw [BitVec.toNat_ofNat, BitVec.toNat_ofNat] at this
  omega

theorem join_lo_hi (offset : BitVec 64) : join (lo offset) (hi offset) = offset := by
  refine BitVec.eq_of_getLsbD_eq fun k hk => ?_
  unfold join lo hi
  rw [BitVec.getLsbD_append]
  split
  next h => simp [h]
  next h => simp [hk, show k - 32 < 32 by omega, show 32 + (k - 32) = k by omega]

/-! ### History -/

/-- A record's history goes on. -/
structure Grew (x y : St) : Prop where
  le : ∀ j, x.count j ≤ y.count j
  same : ∀ j c, c ≤ x.count j → y.record j c = x.record j c

theorem Grew.of_sets (h : y.sets = x.sets) : Grew x y := by
  refine ⟨fun j => ?_, fun j c _ => ?_⟩
  · unfold St.count
    rw [h]
  · unfold St.record
    rw [h]

theorem record_succ (x : St) (i c : Nat) : x.record i (c + 1) = ((x.sets i)[c]?).getD {} := List.getD_eq_getElem?_getD ..

theorem record_of_gt (hc : x.count i < c) : x.record i c = {} := by
  cases c with
  | zero => rfl
  | succ c =>
    rw [record_succ, List.getElem?_eq_none (Nat.le_of_lt_succ hc)]
    rfl

def St.cur (x : St) (i : Nat) : Published := x.record i (x.count i)

/-! ### Scans -/

/-- The one of the higher generation, ties to the higher node, and the one behind it. -/
def Behind (g : BitVec 32) (i : Nat) (g' : BitVec 32) (i' : Nat) : Prop := g < g' ∨ g = g' ∧ i ≤ i'

theorem Behind.refl (g : BitVec 32) (i : Nat) : Behind g i g i := .inr ⟨rfl, le_rfl⟩

theorem Behind.trans {g g' g'' : BitVec 32} {i i' i'' : Nat} (h : Behind g i g' i') (h' : Behind g' i' g'' i'') :
    Behind g i g'' i'' := by
  rcases h with h | ⟨rfl, h⟩
  · rcases h' with h' | ⟨rfl, -⟩
    · exact .inl (BitVec.lt_trans h h')
    · exact .inl h
  · rcases h' with h' | ⟨rfl, h'⟩
    · exact .inl h'
    · exact .inr ⟨rfl, h.trans h'⟩

theorem Behind.antisymm {g g' : BitVec 32} {i i' : Nat} (h : Behind g i g' i') (h' : Behind g' i' g i) : i = i' := by
  rcases h with h | ⟨rfl, h⟩
  · rcases h' with h' | ⟨rfl, -⟩
    · exact absurd (BitVec.lt_trans h h') (BitVec.lt_irrefl _)
    · exact absurd h (BitVec.lt_irrefl _)
  · rcases h' with h' | ⟨-, h'⟩
    · exact absurd h' (BitVec.lt_irrefl _)
    · exact le_antisymm h h'

/-- What was loaded since `seq` is of one set, as long as `seq` has not moved. -/
def Loaded (x : St) (s : Scan) : Prop :=
  let r := x.record s.slot s.stamp
  let stamped (seq : BitVec 32) := seq = BitVec.ofNat 32 s.stamp ∧ s.start s.slot ≤ s.stamp ∧ s.stamp ≤ x.count s.slot
  match s.stage with
  | .seq => True
  | .gen seq => stamped seq
  | .lo seq gen => stamped seq ∧ (x.count s.slot = s.stamp → gen = r.gen)
  | .hi seq gen l => stamped seq ∧ (x.count s.slot = s.stamp → gen = r.gen ∧ l = lo r.offset)
  | .again seq gen l h => stamped seq ∧ (x.count s.slot = s.stamp → gen = r.gen ∧ l = lo r.offset ∧ h = hi r.offset)

/-- A scan: what it holds is what some set published while it ran, and of the records it is past, those that have not moved are
behind it. -/
structure Reads (n : Nat) (x : St) (s : Scan) : Prop where
  self : s.self < n
  start : ∀ j, s.start j ≤ x.count j
  own : s.own = true → s.slot = s.self
  loaded : Loaded x s
  node : s.own = false → s.bestNode < n
  stamp : s.own = false → s.start s.bestNode ≤ s.bestStamp ∧ s.bestStamp ≤ x.count s.bestNode
  best : s.own = false → s.best = ⟨(x.record s.bestNode s.bestStamp).gen, (x.record s.bestNode s.bestStamp).offset⟩
  seen : s.own = false → ∀ j < n, j = s.self ∨ j < s.slot → x.count j = s.start j → Behind (x.cur j).gen j s.best.gen s.bestNode

theorem reads_begin (hi : i < n) : Reads n x (.begin i x.count) where
  self := hi
  start _ := le_rfl
  own _ := rfl
  loaded := trivial
  node h := absurd h (by simp [Scan.begin])
  stamp h := absurd h (by simp [Scan.begin])
  best h := absurd h (by simp [Scan.begin])
  seen h := absurd h (by simp [Scan.begin])

theorem Loaded.grow (h : Loaded x s) (hg : Grew x y) : Loaded y s := by
  have hle := hg.le s.slot
  unfold Loaded at h ⊢
  dsimp only at h ⊢
  split at h
  · trivial
  · exact ⟨h.1, h.2.1, h.2.2.trans hle⟩
  all_goals
    obtain ⟨⟨h1, h2, h3⟩, h4⟩ := h
    refine ⟨⟨h1, h2, h3.trans hle⟩, fun hc => ?_⟩
    rw [hg.same _ _ h3]
    exact h4 (le_antisymm (hle.trans hc.le) h3)

theorem Reads.grow (h : Reads n x s) (hg : Grew x y) : Reads n y s where
  self := h.self
  start j := (h.start j).trans (hg.le j)
  own := h.own
  loaded := h.loaded.grow hg
  node := h.node
  stamp ho := ⟨(h.stamp ho).1, (h.stamp ho).2.trans (hg.le _)⟩
  best ho := by
    rw [hg.same _ _ (h.stamp ho).2]
    exact h.best ho
  seen ho j hj hp hc := by
    have hx : x.count j = s.start j := le_antisymm ((hg.le j).trans hc.le) (h.start j)
    have hcur : y.cur j = x.cur j := by
      unfold St.cur
      rw [hc, ← hx, hg.same j _ le_rfl]
    rw [hcur]
    exact h.seen ho j hj hp hx

/-- A record as its readers find it. -/
structure Holds (x : St) (i : Nat) : Prop where
  seq : (x.wall i).seq = BitVec.ofNat 32 (x.count i)
  gen : ((x.wall i).value (parity (x.wall i).seq)).gen = (x.cur i).gen
  lo : ((x.wall i).value (parity (x.wall i).seq)).lo = lo (x.cur i).offset
  hi : ((x.wall i).value (parity (x.wall i).seq)).hi = hi (x.cur i).offset

theorem reads_next (hself : s.self < n) (hstart : ∀ j, s.start j ≤ x.count j) (hn : s.bestNode < n)
    (hs : s.start s.bestNode ≤ s.bestStamp ∧ s.bestStamp ≤ x.count s.bestNode)
    (hb : s.best = ⟨(x.record s.bestNode s.bestStamp).gen, (x.record s.bestNode s.bestStamp).offset⟩)
    (hseen : ∀ j < n, j = s.self ∨ j < i → x.count j = s.start j → Behind (x.cur j).gen j s.best.gen s.bestNode) :
    Reads n x (s.next i) where
  self := hself
  start := hstart
  own ho := absurd ho (by simp [Scan.next])
  loaded := trivial
  node _ := hn
  stamp _ := hs
  best _ := hb
  seen _ j hj hp hc := by
    refine hseen j hj ?_ hc
    dsimp only [Scan.next] at hp
    rcases hp with hp | hp
    · exact .inl hp
    · split at hp
      next heq => exact (Nat.lt_succ_iff_lt_or_eq.1 hp).elim .inr fun he => .inl (he.trans heq)
      · exact .inr hp

theorem Reads.took (h : Reads n x s) (hslot : s.slot < n) (hs : s.start s.slot ≤ s.stamp) (hc : x.count s.slot = s.stamp) :
    Reads n x (s.took ⟨(x.record s.slot s.stamp).gen, (x.record s.slot s.stamp).offset⟩) := by
  have hcur : x.cur s.slot = x.record s.slot s.stamp := by rw [St.cur, hc]
  unfold Scan.took
  split
  next hown =>
    have hself := h.own hown
    refine reads_next h.self h.start h.self ?_ ?_ ?_
    · rw [← hself]
      exact ⟨hs, hc.ge⟩
    · rw [← hself]
    · rintro j - (rfl | hj) -
      · dsimp only
        rw [← hself, hcur]
        exact .refl ..
      · exact absurd hj (Nat.not_lt_zero j)
  next hown =>
    have hown : s.own = false := Bool.eq_false_iff.2 hown
    -- what is behind the best one so far
    have hold : ∀ j < n, j = s.self ∨ j < s.slot + 1 → j ≠ s.slot → x.count j = s.start j →
        Behind (x.cur j).gen j s.best.gen s.bestNode := fun j hj hp hne hcj =>
      h.seen hown j hj (hp.imp_right fun hlt => lt_of_le_of_ne (Nat.lt_succ_iff.1 hlt) hne) hcj
    split
    next hbetter =>
      have hstep : Behind s.best.gen s.bestNode (x.record s.slot s.stamp).gen s.slot :=
        hbetter.imp_right fun he => ⟨he.1.symm, he.2.le⟩
      refine reads_next h.self h.start hslot ⟨hs, hc.ge⟩ rfl fun j hj hp hcj => ?_
      rcases eq_or_ne j s.slot with rfl | hne
      · rw [hcur]
        exact .refl ..
      · exact (hold j hj hp hne hcj).trans hstep
    next hworse =>
      refine reads_next h.self h.start (h.node hown) (h.stamp hown) (h.best hown) fun j hj hp hcj => ?_
      rcases eq_or_ne j s.slot with rfl | hne
      · rw [hcur]
        obtain ⟨hge, htie⟩ := not_or.1 hworse
        rcases Nat.lt_or_eq_of_le (BitVec.le_def.1 (BitVec.not_lt.1 hge)) with hlt | heq
        · exact .inl (BitVec.lt_def.2 hlt)
        · have heq := BitVec.eq_of_toNat_eq heq
          exact .inr ⟨heq, Nat.le_of_not_lt fun hlt => htie ⟨heq, hlt⟩⟩
      · exact hold j hj hp hne hcj

theorem Reads.missed (h : Reads n x s) (hm : x.count s.slot ≠ s.start s.slot) : Reads n x s.missed := by
  unfold Scan.missed
  split
  · exact { h with loaded := trivial }
  next hlast =>
    have hown : s.own = false := Bool.eq_false_iff.2 (not_or.1 hlast).1
    refine reads_next h.self h.start (h.node hown) (h.stamp hown) (h.best hown) fun j hj hp hcj => ?_
    refine h.seen hown j hj (hp.imp_right fun hlt => ?_) hcj
    refine lt_of_le_of_ne (Nat.lt_succ_iff.1 hlt) ?_
    rintro rfl
    exact hm hcj

theorem Reads.slot_lt (h : Reads n x s) (hf : s.finished n = false) : s.slot < n := by
  unfold Scan.finished at hf
  rcases hown : s.own with _ | _
  · rw [hown] at hf
    exact Nat.lt_of_not_le fun hle => by simp [hle] at hf
  · exact (h.own hown).symm ▸ h.self

theorem load_keeps {w : WallSet} (hs : s.load n w c = some s') : s'.self = s.self ∧ s'.start = s.start := by
  unfold Scan.load at hs
  split at hs
  case h_5 =>
    split at hs
    · cases hs
      unfold Scan.took Scan.missed
      split_ifs <;> exact ⟨rfl, rfl⟩
    · cases hs
  all_goals
    cases hs
    exact ⟨rfl, rfl⟩

theorem Reads.load (h : Reads n x s) (hf : s.finished n = false) (hw : Holds x s.slot) (hflat : ¬ 1 < n → (x.cur s.slot).gen = 0)
    (hs : s.load n (x.wall s.slot) (x.count s.slot) = some s') : Reads n x s' := by
  have hl := h.loaded
  have hslot := h.slot_lt hf
  -- while `seq` has not moved the value it names is the record's
  have hcur : x.count s.slot = s.stamp → x.cur s.slot = x.record s.slot s.stamp := fun hc => by rw [St.cur, hc]
  have hseq : ∀ {seq : BitVec 32}, seq = BitVec.ofNat 32 s.stamp → x.count s.slot = s.stamp → seq = (x.wall s.slot).seq :=
    fun hq hc => by rw [hq, hw.seq, hc]
  unfold Scan.load at hs
  unfold Loaded at hl
  dsimp only at hl
  cases hst : s.stage with
  | seq =>
    rw [hst] at hs
    cases hs
    exact { h with loaded := ⟨hw.seq, h.start _, le_rfl⟩ }
  | gen seq =>
    rw [hst] at hs hl
    cases hs
    refine { h with loaded := ⟨hl, fun hc => ?_⟩ }
    dsimp only at hc ⊢
    rw [hseq hl.1 hc, hw.gen, ← hcur hc]
    split
    · rfl
    next hone => exact (hflat hone).symm
  | lo seq gen =>
    rw [hst] at hs hl
    cases hs
    refine { h with loaded := ⟨hl.1, fun hc => ⟨hl.2 hc, ?_⟩⟩ }
    dsimp only at hc ⊢
    rw [hseq hl.1.1 hc, hw.lo, ← hcur hc]
  | hi seq gen l =>
    rw [hst] at hs hl
    cases hs
    refine { h with loaded := ⟨hl.1, fun hc => ⟨(hl.2 hc).1, (hl.2 hc).2, ?_⟩⟩ }
    dsimp only at hc ⊢
    rw [hseq hl.1.1 hc, hw.hi, ← hcur hc]
  | again seq gen l hh =>
    rw [hst] at hs hl
    dsimp only at hs hl
    obtain ⟨⟨hq, hlow, hle⟩, hparts⟩ := hl
    split at hs
    next hround =>
      cases hs
      have hiff : (x.wall s.slot).seq = seq ↔ x.count s.slot = s.stamp := by
        rw [hw.seq, hq]
        exact ofNat_eq_iff hle hround
      split
      next heq =>
        have hc := hiff.1 heq
        obtain ⟨rfl, rfl, rfl⟩ := hparts hc
        rw [join_lo_hi]
        exact h.took hslot hlow hc
      next hne =>
        refine h.missed fun hc => hne (hiff.2 ?_)
        exact le_antisymm (hc.le.trans hlow) hle
    · cases hs

/-! ### Sets -/

/-- What a set has stored so far, in the value that `seq` does not name. -/
def Sets (n : Nat) (x : St) (i : Nat) : Setter → Prop
  | .idle => True
  | .scanning s => s.self = i ∧ Reads n x s ∧ x.count i = s.start i
  | .fetch g _ => ¬ 1 < n → g = 0
  | .storeGen g q _ => (¬ 1 < n → g = 0) ∧ q = (x.wall i).seq + 1
  | .storeLo g q _ => (¬ 1 < n → g = 0) ∧ q = (x.wall i).seq + 1 ∧ ((x.wall i).value (parity q)).gen = g
  | .storeHi g q offset _ =>
    (¬ 1 < n → g = 0) ∧ q = (x.wall i).seq + 1 ∧ ((x.wall i).value (parity q)).gen = g ∧
      ((x.wall i).value (parity q)).lo = lo offset
  | .storeSeq g q offset _ =>
    (¬ 1 < n → g = 0) ∧ q = (x.wall i).seq + 1 ∧ ((x.wall i).value (parity q)).gen = g ∧
      ((x.wall i).value (parity q)).lo = lo offset ∧ ((x.wall i).value (parity q)).hi = hi offset

theorem Sets.same {p : Setter} (h : Sets n x i p) (hg : Grew x y) (hw : y.wall i = x.wall i) (hc : y.count i = x.count i) :
    Sets n y i p := by
  cases p with
  | idle => trivial
  | scanning s => exact ⟨h.1, h.2.1.grow hg, hc.trans h.2.2⟩
  | fetch g prior => exact h
  | _ =>
    unfold Sets at h ⊢
    rw [hw]
    exact h

structure Whole (n : Nat) (x : St) : Prop where
  holds : ∀ i, Holds x i
  flat : ¬ 1 < n → ∀ i c, (x.record i c).gen = 0
  readers : ∀ r s, x.reader r = some s → Reads n x s
  setters : ∀ i, Sets n x i (x.setter i)

theorem whole_boot (n : Nat) : Whole n {} where
  holds _ := ⟨rfl, rfl, (by decide : (0 : BitVec 32) = lo 0), (by decide : (0 : BitVec 32) = hi 0)⟩
  flat _ _ c := by cases c <;> rfl
  readers _ _ h := by cases h
  setters _ := trivial

theorem Holds.same (h : Holds x i) (hw : y.wall i = x.wall i) (hs : y.sets = x.sets) : Holds y i := by
  have hc : y.count i = x.count i := by rw [St.count, hs, St.count]
  have hcur : y.cur i = x.cur i := by
    unfold St.cur St.record
    rw [hc, hs]
  refine ⟨?_, ?_, ?_, ?_⟩
  · rw [hw, hc]; exact h.seq
  · rw [hw, hcur]; exact h.gen
  · rw [hw, hcur]; exact h.lo
  · rw [hw, hcur]; exact h.hi

theorem Whole.same (h : Whole n x) (hw : y.wall = x.wall) (hs : y.sets = x.sets) (hr : ∀ r s, y.reader r = some s → Reads n x s)
    (ht : ∀ i, Sets n x i (y.setter i)) : Whole n y := by
  have hg := Grew.of_sets hs
  have hc : ∀ i, y.count i = x.count i := fun i => by rw [St.count, hs, St.count]
  refine ⟨fun i => (h.holds i).same (by rw [hw]) hs, fun h1 i c => ?_, fun r s hrs => (hr r s hrs).grow hg,
    fun i => (ht i).same hg (by rw [hw]) (hc i)⟩
  unfold St.record
  rw [hs]
  exact h.flat h1 i c

theorem Whole.setReader (h : Whole n x) {r : Nat} (hs : Reads n x s) :
    Whole n { x with reader := update x.reader r (some s) } := by
  refine h.same rfl rfl (fun r' s' hr => ?_) h.setters
  dsimp only at hr
  rcases eq_or_ne r' r with rfl | hne
  · rw [update_self] at hr
    cases hr
    exact hs
  · rw [update_of_ne hne] at hr
    exact h.readers r' s' hr

theorem Whole.setSetter (h : Whole n x) (i : Nat) (p : Setter) (b : Nat) (hp : Sets n x i p) :
    Whole n { x.setSetter i p with begun := b } := by
  refine h.same rfl rfl h.readers fun j => ?_
  dsimp only [St.setSetter]
  rcases eq_or_ne j i with rfl | hne
  · rw [update_self]
    exact hp
  · rw [update_of_ne hne]
    exact h.setters j

theorem Whole.put (h : Whole n x) {f : WallValue → WallValue} {p : Setter} (hq : q = (x.wall i).seq + 1)
    (hp : Sets n (x.put i q f) i p) : Whole n ((x.put i q f).setSetter i p) := by
  have hother : ∀ j, j ≠ i → (x.put i q f).wall j = x.wall j := fun j hj => update_of_ne hj ..
  have hval : ((x.put i q f).wall i).value (parity (x.wall i).seq) = (x.wall i).value (parity (x.wall i).seq) := by
    dsimp only [St.put]
    rw [update_self]
    refine update_of_ne ?_ ..
    rw [hq, parity_succ]
    exact Bool.self_ne_not _
  have hseq : ((x.put i q f).wall i).seq = (x.wall i).seq := by
    dsimp only [St.put]
    rw [update_self]
  refine ⟨fun j => ?_, h.flat, fun r s hr => (h.readers r s hr).grow (.of_sets rfl), fun j => ?_⟩
  · rcases eq_or_ne j i with rfl | hne
    · have hj := h.holds j
      refine ⟨hseq.trans hj.seq, ?_, ?_, ?_⟩
      · dsimp only [St.setSetter]
        rw [hseq, hval]
        exact hj.gen
      · dsimp only [St.setSetter]
        rw [hseq, hval]
        exact hj.lo
      · dsimp only [St.setSetter]
        rw [hseq, hval]
        exact hj.hi
    · exact (h.holds j).same (hother j hne) rfl
  · dsimp only [St.setSetter]
    rcases eq_or_ne j i with rfl | hne
    · rw [update_self]
      exact hp.same (.of_sets rfl) rfl rfl
    · rw [update_of_ne hne]
      exact (h.setters j).same (.of_sets rfl) (hother j hne) rfl

theorem put_value (x : St) (i : Nat) (q : BitVec 32) (f : WallValue → WallValue) :
    ((x.put i q f).wall i).value (parity q) = f ((x.wall i).value (parity q)) := by
  dsimp only [St.put]
  rw [update_self]
  exact update_self ..

theorem put_seq (x : St) (i : Nat) (q : BitVec 32) (f : WallValue → WallValue) : ((x.put i q f).wall i).seq = (x.wall i).seq := by
  dsimp only [St.put]
  rw [update_self]

/-- The state behind the store that publishes. -/
def St.publish (x : St) (i : Nat) (q : BitVec 32) (r : Published) : St :=
  { x.setSetter i .idle with
    wall := update x.wall i { x.wall i with seq := q }
    sets := update x.sets i (x.sets i ++ [r]) }

section Publish

variable (x : St) (i : Nat) (q : BitVec 32) (r : Published)

theorem publish_sets_self : (x.publish i q r).sets i = x.sets i ++ [r] := update_self ..

theorem publish_sets_of_ne (hj : j ≠ i) : (x.publish i q r).sets j = x.sets j := update_of_ne hj ..

theorem publish_count_self : (x.publish i q r).count i = x.count i + 1 := by
  unfold St.count
  rw [publish_sets_self, List.length_append, List.length_singleton]

theorem publish_count_of_ne (hj : j ≠ i) : (x.publish i q r).count j = x.count j := by
  unfold St.count
  rw [publish_sets_of_ne x i q r hj]

theorem publish_grew : Grew x (x.publish i q r) := by
  refine ⟨fun j => ?_, fun j c hc => ?_⟩
  · rcases eq_or_ne j i with rfl | hne
    · rw [publish_count_self]
      exact Nat.le_succ _
    · rw [publish_count_of_ne x i q r hne]
  · cases c with
    | zero => rfl
    | succ c =>
      rw [record_succ, record_succ]
      rcases eq_or_ne j i with rfl | hne
      · rw [publish_sets_self, List.getElem?_append_left hc]
      · rw [publish_sets_of_ne x i q r hne]

theorem publish_cur_self : (x.publish i q r).cur i = r := by
  unfold St.cur
  rw [publish_count_self, record_succ, publish_sets_self, St.count, List.getElem?_concat_length]
  rfl

theorem publish_cur_of_ne (hj : j ≠ i) : (x.publish i q r).cur j = x.cur j := by
  unfold St.cur
  rw [publish_count_of_ne x i q r hj, (publish_grew x i q r).same j _ le_rfl]

end Publish

theorem Whole.publish (h : Whole n x) {g : BitVec 32} {offset : BitVec 64} {prior : Nat → Nat}
    (hp : Sets n x i (.storeSeq g q offset prior)) : Whole n (x.publish i q ⟨g, offset, prior⟩) := by
  obtain ⟨hflat, hq, hgen, hlo, hhi⟩ := hp
  have hg := publish_grew x i q ⟨g, offset, prior⟩
  have hself := publish_cur_self x i q ⟨g, offset, prior⟩
  have hwall : (x.publish i q ⟨g, offset, prior⟩).wall i = { x.wall i with seq := q } := update_self ..
  refine ⟨fun j => ?_, fun h1 j c => ?_, fun r s hr => (h.readers r s hr).grow hg, fun j => ?_⟩
  · rcases eq_or_ne j i with rfl | hne
    · refine ⟨?_, ?_, ?_, ?_⟩
      · rw [hwall, publish_count_self, hq, (h.holds j).seq]
        exact (BitVec.ofNat_add ..).symm
      · rw [hwall, hself]; exact hgen
      · rw [hwall, hself]; exact hlo
      · rw [hwall, hself]; exact hhi
    · have hj := h.holds j
      have hw : (x.publish i q ⟨g, offset, prior⟩).wall j = x.wall j := update_of_ne hne ..
      refine ⟨?_, ?_, ?_, ?_⟩
      · rw [hw, publish_count_of_ne _ _ _ _ hne]; exact hj.seq
      · rw [hw, publish_cur_of_ne _ _ _ _ hne]; exact hj.gen
      · rw [hw, publish_cur_of_ne _ _ _ _ hne]; exact hj.lo
      · rw [hw, publish_cur_of_ne _ _ _ _ hne]; exact hj.hi
  · rcases Nat.lt_or_ge (x.count j) c with hlt | hge
    · rcases Nat.lt_or_ge ((x.publish i q ⟨g, offset, prior⟩).count j) c with hlt' | hge'
      · rw [record_of_gt hlt']
      · -- the new one
        rcases eq_or_ne j i with rfl | hne
        · rw [publish_count_self] at hge'
          obtain rfl : c = x.count j + 1 := by omega
          rw [St.cur, publish_count_self] at hself
          rw [hself]
          exact hflat h1
        · rw [publish_count_of_ne _ _ _ _ hne] at hge'
          exact absurd hge' (Nat.not_le.2 hlt)
    · rw [hg.same j c hge]
      exact h.flat h1 j c
  · rcases eq_or_ne j i with rfl | hne
    · dsimp only [St.publish, St.setSetter]
      rw [update_self]
      trivial
    · have hsame := (h.setters j).same hg (update_of_ne hne _ _) (publish_count_of_ne x i q ⟨g, offset, prior⟩ hne)
      dsimp only [St.publish, St.setSetter] at hsame ⊢
      rw [update_of_ne hne]
      exact hsame

/-! ### Steps -/

/-- What a step does. -/
inductive Does (n : Nat) (x : St) : St → Prop where
  | start (r i : Nat) (hi : i < n) : Does n x { x with reader := update x.reader r (some (.begin i x.count)) }
  | read (r : Nat) (s s' : Scan) (hr : x.reader r = some s) (hf : s.finished n = false)
      (hl : s.load n (x.wall s.slot) (x.count s.slot) = some s') : Does n x { x with reader := update x.reader r (some s') }
  | begin (i : Nat) (hi : i < n) (hp : x.setter i = .idle) :
      Does n x { x.setSetter i (.scanning (.begin i x.count)) with begun := x.begun + 1 }
  | scan (i : Nat) (s s' : Scan) (hp : x.setter i = .scanning s) (hf : s.finished n = false)
      (hl : s.load n (x.wall s.slot) (x.count s.slot) = some s') : Does n x (x.setSetter i (.scanning s'))
  | scanned (i : Nat) (s : Scan) (hp : x.setter i = .scanning s) (hf : s.finished n = true) :
      Does n x (x.setSetter i (.fetch (St.genFor n s.best) s.start))
  | fetch (i : Nat) (g : BitVec 32) (prior : Nat → Nat) (hp : x.setter i = .fetch g prior) :
      Does n x (x.setSetter i (.storeGen g ((x.wall i).seq + 1) prior))
  | gen (i : Nat) (g q : BitVec 32) (prior : Nat → Nat) (hp : x.setter i = .storeGen g q prior) :
      Does n x ((x.put i q fun v => { v with gen := g }).setSetter i (.storeLo g q prior))
  | lo (i : Nat) (g q : BitVec 32) (offset : BitVec 64) (prior : Nat → Nat) (hp : x.setter i = .storeLo g q prior) :
      Does n x ((x.put i q fun v => { v with lo := Realtime.lo offset }).setSetter i (.storeHi g q offset prior))
  | hi (i : Nat) (g q : BitVec 32) (offset : BitVec 64) (prior : Nat → Nat) (hp : x.setter i = .storeHi g q offset prior) :
      Does n x ((x.put i q fun v => { v with hi := Realtime.hi offset }).setSetter i (.storeSeq g q offset prior))
  | publish (i : Nat) (g q : BitVec 32) (offset : BitVec 64) (prior : Nat → Nat) (hp : x.setter i = .storeSeq g q offset prior) :
      Does n x (x.publish i q ⟨g, offset, prior⟩)

theorem step_does {a : Act} (hs : x.step n a = some y) : Does n x y := by
  unfold St.step at hs
  cases a with
  | start r node =>
    dsimp only at hs
    split at hs
    next hi =>
      cases hs
      exact .start r node hi
    · cases hs
  | read r =>
    dsimp only at hs
    split at hs
    next s hr =>
      split at hs
      · cases hs
      next hf =>
        obtain ⟨s', hl, rfl⟩ := Option.map_eq_some_iff.1 hs
        exact .read r s s' hr (Bool.eq_false_iff.2 hf) hl
    · cases hs
  | begin node =>
    dsimp only at hs
    split at hs
    next hp =>
      split at hs
      next hi =>
        cases hs
        exact .begin node hi hp
      · cases hs
    · cases hs
  | scan node =>
    dsimp only at hs
    split at hs
    next s hp =>
      split at hs
      next hf =>
        cases hs
        exact .scanned node s hp hf
      next hf =>
        obtain ⟨s', hl, rfl⟩ := Option.map_eq_some_iff.1 hs
        exact .scan node s s' hp (Bool.eq_false_iff.2 hf) hl
    · cases hs
  | store node offset =>
    dsimp only at hs
    unfold St.stores at hs
    split at hs
    next g prior hp =>
      cases hs
      exact .fetch node g prior hp
    next g q prior hp =>
      cases hs
      exact .gen node g q prior hp
    next g q prior hp =>
      cases hs
      exact .lo node g q offset prior hp
    next g q off prior hp =>
      cases hs
      exact .hi node g q off prior hp
    next g q off prior hp =>
      cases hs
      exact .publish node g q off prior hp
    · cases hs

theorem Whole.step (h : Whole n x) (hd : Does n x y) : Whole n y := by
  cases hd with
  | start r i hi => exact h.setReader (reads_begin hi)
  | read r s s' hr hf hl =>
    exact h.setReader ((h.readers r s hr).load hf (h.holds _) (fun h1 => h.flat h1 _ _) hl)
  | begin i hi hp => exact h.setSetter i (.scanning (.begin i x.count)) _ ⟨rfl, reads_begin hi, rfl⟩
  | scan i s s' hp hf hl =>
    have hset := h.setters i
    rw [hp] at hset
    obtain ⟨hself, hreads, hc⟩ := hset
    have hkeep := load_keeps hl
    exact h.setSetter i (.scanning s') _
      ⟨hkeep.1.trans hself, hreads.load hf (h.holds _) (fun h1 => h.flat h1 _ _) hl, hc.trans (congrFun hkeep.2 i).symm⟩
  | scanned i s hp hf => exact h.setSetter i (.fetch (St.genFor n s.best) s.start) _ fun h1 => if_neg h1
  | fetch i g prior hp =>
    have hset := h.setters i
    rw [hp] at hset
    exact h.setSetter i (.storeGen g ((x.wall i).seq + 1) prior) _ ⟨hset, rfl⟩
  | gen i g q prior hp =>
    have hset := h.setters i
    rw [hp] at hset
    exact h.put hset.2 ⟨hset.1, by rw [put_seq]; exact hset.2, by rw [put_value]⟩
  | lo i g q offset prior hp =>
    have hset := h.setters i
    rw [hp] at hset
    obtain ⟨hflat, hq, hgen⟩ := hset
    exact h.put hq ⟨hflat, by rw [put_seq]; exact hq, by rw [put_value]; exact hgen, by rw [put_value]⟩
  | hi i g q offset prior hp =>
    have hset := h.setters i
    rw [hp] at hset
    obtain ⟨hflat, hq, hgen, hlo⟩ := hset
    exact h.put hq ⟨hflat, by rw [put_seq]; exact hq, by rw [put_value]; exact hgen, by rw [put_value]; exact hlo, by rw [put_value]⟩
  | publish i g q offset prior hp =>
    have hset := h.setters i
    rw [hp] at hset
    exact h.publish hset

theorem Reachable.whole (h : Reachable n x) : Whole n x := by
  induction h with
  | boot => exact whole_boot n
  | step a _ hs ih => exact ih.step (step_does hs)

end KickOS.Realtime
