import KickOS.Realtime.Whole

/-! The generations order the sets: no set is preferred to one that began after it was published, and readers between
sets agree. -/

namespace KickOS.Realtime
open Function (update update_idem update_of_ne update_self)

variable {n i j c : Nat} {x y : St} {s : Scan}

/-! ### Counting the sets -/

/-- The generation a set has, and what was published when it began, once its scan has answered. -/
def Setter.pending : Setter → Option (BitVec 32 × (Nat → Nat))
  | .fetch g prior | .storeGen g _ prior | .storeLo g _ prior | .storeHi g _ _ prior | .storeSeq g _ _ prior => some (g, prior)
  | _ => none

def Setter.load : Setter → Nat
  | .idle => 0
  | _ => 1

namespace St

def published (n : Nat) (x : St) : Nat := ∑ i ∈ Finset.range n, x.count i

/-- The sets that were published or are under way. -/
def under (n : Nat) (x : St) : Nat := ∑ i ∈ Finset.range n, (x.count i + (x.setter i).load)

end St

theorem sum_balance {f g : Nat → Nat} (hi : i < n) (hne : ∀ j, j ≠ i → g j = f j) :
    (∑ j ∈ Finset.range n, g j) + f i = (∑ j ∈ Finset.range n, f j) + g i := by
  have hmem := Finset.mem_range.2 hi
  have hrest : ∑ j ∈ (Finset.range n).erase i, g j = ∑ j ∈ (Finset.range n).erase i, f j :=
    Finset.sum_congr rfl fun j hj => hne j (Finset.ne_of_mem_erase hj)
  rw [← Finset.add_sum_erase _ f hmem, ← Finset.add_sum_erase _ g hmem, hrest]
  omega

theorem published_lt_under (hi : i < n) (hl : (x.setter i).load = 1) : x.published n < x.under n :=
  Finset.sum_lt_sum (fun _ _ => Nat.le_add_right ..) ⟨i, Finset.mem_range.2 hi, by rw [hl]; exact Nat.lt_succ_self _⟩

/-! ### The order of the generations -/

/-- A set of record `i` and what was published when it began: of the other records, those that have not moved since are
behind it. -/
structure After (n : Nat) (x : St) (i : Nat) (g : BitVec 32) (prior : Nat → Nat) : Prop where
  le : ∀ j, prior j ≤ x.count j
  gen : ∀ j < n, j ≠ i → x.count j = prior j → (x.cur j).gen < g

theorem After.grow {g : BitVec 32} {prior : Nat → Nat} (h : After n x i g prior) (hg : Grew x y) : After n y i g prior := by
  refine ⟨fun j => (h.le j).trans (hg.le j), fun j hj hne hc => ?_⟩
  have hx : x.count j = prior j := le_antisymm ((hg.le j).trans hc.le) (h.le j)
  have hcur : y.cur j = x.cur j := by rw [St.cur, hc, ← hx, hg.same j _ le_rfl, St.cur]
  rw [hcur]
  exact h.gen j hj hne hx

/-- A set that has its generation and is not published yet. -/
structure Pends (n : Nat) (x : St) (i : Nat) (g : BitVec 32) (prior : Nat → Nat) : Prop where
  after : After n x i g prior
  bound : g.toNat ≤ x.published n + 1
  own : (x.cur i).gen.toNat ≤ g.toNat
  count : x.count i = prior i

structure Ordered (n : Nat) (x : St) : Prop where
  nodes : ∀ i, n ≤ i → x.setter i = .idle
  total : x.under n ≤ x.begun
  bound : ∀ i c, (x.record i c).gen.toNat ≤ x.published n
  pends : ∀ i g prior, (x.setter i).pending = some (g, prior) → Pends n x i g prior
  mono : ∀ i c, (x.record i c).gen.toNat ≤ (x.cur i).gen.toNat
  after : ∀ i c, c < x.count i → After n x i (x.record i (c + 1)).gen (x.record i (c + 1)).prior ∧
    (x.record i (c + 1)).prior i ≤ c

theorem ordered_boot (n : Nat) : Ordered n {} where
  nodes _ _ := rfl
  total := by
    unfold St.under
    exact (Finset.sum_eq_zero fun _ _ => rfl).le
  bound _ c := by cases c <;> exact Nat.zero_le _
  pends _ _ _ h := by cases h
  mono _ c := by cases c <;> exact Nat.zero_le _
  after _ _ h := absurd h (Nat.not_lt_zero _)

theorem count_congr (hs : y.sets = x.sets) (i : Nat) : y.count i = x.count i := by rw [St.count, hs, St.count]

theorem cur_congr (hs : y.sets = x.sets) (i : Nat) : y.cur i = x.cur i := by
  unfold St.cur St.record
  rw [count_congr hs, hs]

theorem published_congr (hs : y.sets = x.sets) (n : Nat) : y.published n = x.published n :=
  Finset.sum_congr rfl fun i _ => count_congr hs i

theorem Ordered.same (h : Ordered n x) (hs : y.sets = x.sets) (hn : ∀ i, n ≤ i → y.setter i = .idle) (ht : y.under n ≤ y.begun)
    (hp : ∀ i g prior, (y.setter i).pending = some (g, prior) → Pends n x i g prior) : Ordered n y := by
  have hg := Grew.of_sets hs
  have hrec : ∀ i c, y.record i c = x.record i c := fun i c => by
    unfold St.record
    rw [hs]
  refine ⟨hn, ht, fun i c => ?_, fun i g prior hq => ?_, fun i c => ?_, fun i c hc => ?_⟩
  · rw [hrec, published_congr hs]
    exact h.bound i c
  · obtain ⟨ha, hb, ho, hc⟩ := hp i g prior hq
    exact ⟨ha.grow hg, by rw [published_congr hs]; exact hb, by rw [cur_congr hs]; exact ho, (count_congr hs i).trans hc⟩
  · rw [hrec, cur_congr hs]
    exact h.mono i c
  · rw [count_congr hs] at hc
    rw [hrec]
    exact ⟨(h.after i c hc).1.grow hg, (h.after i c hc).2⟩

theorem Ordered.setSetter (h : Ordered n x) {p : Setter} (hs : y.sets = x.sets) (hy : y.setter = update x.setter i p)
    (hb : y.begun = x.begun) (hi : i < n) (hl : p.load = (x.setter i).load)
    (hp : ∀ g prior, p.pending = some (g, prior) → Pends n x i g prior) : Ordered n y := by
  refine h.same hs (fun j hj => ?_) ?_ fun j g prior hq => ?_
  · rw [hy, update_of_ne (by omega)]
    exact h.nodes j hj
  · rw [hb]
    refine le_trans (le_of_eq (Finset.sum_congr rfl fun j _ => ?_)) h.total
    rw [count_congr hs, hy]
    rcases eq_or_ne j i with rfl | hne
    · rw [update_self, hl]
    · rw [update_of_ne hne]
  · rw [hy] at hq
    rcases eq_or_ne j i with rfl | hne
    · rw [update_self] at hq
      exact hp g prior hq
    · rw [update_of_ne hne] at hq
      exact h.pends j g prior hq

theorem Ordered.lt_of_setter (h : Ordered n x) (hp : x.setter i ≠ .idle) : i < n := Nat.lt_of_not_le fun hle => hp (h.nodes i hle)

theorem Ordered.scanned (h : Ordered n x) (hw : Whole n x) (hb : x.begun < 2 ^ 32) (hp : x.setter i = .scanning s)
    (hf : s.finished n = true) : Pends n x i (St.genFor n s.best) s.start := by
  have hset := hw.setters i
  rw [hp] at hset
  obtain ⟨rfl, hr, hc⟩ := hset
  obtain ⟨hown, hslot⟩ : s.own = false ∧ n ≤ s.slot := by simpa [Scan.finished] using hf
  have hbest := hr.best hown
  -- every record that has not moved is behind the answer
  have hseen : ∀ j < n, x.count j = s.start j → (x.cur j).gen.toNat ≤ s.best.gen.toNat := fun j hj hcj => by
    rcases hr.seen hown j hj (.inr (hj.trans_le hslot)) hcj with hlt | ⟨heq, -⟩
    · exact (BitVec.lt_def.1 hlt).le
    · rw [heq]
  have hle : s.best.gen.toNat ≤ x.published n := by
    rw [hbest]
    exact h.bound _ _
  have hroom : x.published n < x.begun := (published_lt_under hr.self (by rw [hp]; rfl)).trans_le h.total
  unfold St.genFor
  split
  next h1 =>
    have hnat : (s.best.gen + 1).toNat = s.best.gen.toNat + 1 := by
      rw [BitVec.toNat_add]
      exact Nat.mod_eq_of_lt (by have : (1 : BitVec 32).toNat = 1 := rfl; omega)
    refine ⟨⟨hr.start, fun j hj _ hcj => ?_⟩, ?_, ?_, hc⟩
    · rw [BitVec.lt_def, hnat]
      exact Nat.lt_succ_of_le (hseen j hj hcj)
    · rw [hnat]
      exact Nat.succ_le_succ hle
    · rw [hnat]
      exact (hseen _ hr.self hc).trans (Nat.le_succ _)
  next h1 =>
    have hself := hr.self
    refine ⟨⟨hr.start, fun j hj hne _ => absurd hne (by omega)⟩, Nat.zero_le _, ?_, hc⟩
    rw [St.cur, hw.flat h1]

theorem Ordered.publish (h : Ordered n x) {g q : BitVec 32} {offset : BitVec 64} {prior : Nat → Nat}
    (hp : x.setter i = .storeSeq g q offset prior) : Ordered n (x.publish i q ⟨g, offset, prior⟩) := by
  have hi : i < n := h.lt_of_setter (by rw [hp]; simp)
  obtain ⟨ha, hb, ho, hc⟩ := h.pends i g prior (by rw [hp]; rfl)
  obtain ⟨y, hy⟩ : ∃ y, y = x.publish i q ⟨g, offset, prior⟩ := ⟨_, rfl⟩
  have hg : Grew x y := hy ▸ publish_grew x i q _
  have hself : y.count i = x.count i + 1 := hy ▸ publish_count_self x i q _
  have hother : ∀ j, j ≠ i → y.count j = x.count j := fun j hj => hy ▸ publish_count_of_ne x i q _ hj
  have hcur : y.cur i = ⟨g, offset, prior⟩ := hy ▸ publish_cur_self x i q _
  have hcur' : ∀ j, j ≠ i → y.cur j = x.cur j := fun j hj => hy ▸ publish_cur_of_ne x i q _ hj
  have hsetter : y.setter = update x.setter i .idle := by rw [hy]; rfl
  have hbegun : y.begun = x.begun := by rw [hy]; rfl
  rw [← hy]
  have hpub : y.published n = x.published n + 1 := by
    have := sum_balance (f := x.count) (g := y.count) hi hother
    unfold St.published
    omega
  -- a record's history: as it was, the new one, or nothing
  have hrec : ∀ j c, y.record j c = x.record j c ∨ (j = i ∧ c = x.count i + 1 ∧ y.record j c = ⟨g, offset, prior⟩) := by
    intro j c
    rcases Nat.lt_or_ge (x.count j) c with hlt | hge
    · rcases Nat.lt_or_ge (y.count j) c with hlt' | hge'
      · rw [record_of_gt hlt', record_of_gt hlt]
        exact .inl rfl
      · rcases eq_or_ne j i with rfl | hne
        · obtain rfl : c = x.count j + 1 := by omega
          refine .inr ⟨rfl, rfl, ?_⟩
          rw [← hself]
          exact hcur
        · rw [hother j hne] at hge'
          exact absurd hge' (Nat.not_le.2 hlt)
    · exact .inl (hg.same j c hge)
  refine ⟨fun j hj => ?_, ?_, fun j c => ?_, fun j g' prior' hq => ?_, fun j c => ?_, fun j c hlt => ?_⟩
  · rw [hsetter, update_of_ne (by omega)]
    exact h.nodes j hj
  · have hbal : y.under n + (x.count i + (x.setter i).load) = x.under n + (y.count i + (y.setter i).load) :=
      sum_balance (f := fun j => x.count j + (x.setter j).load) (g := fun j => y.count j + (y.setter j).load) hi
        fun j hj => by rw [hother j hj, hsetter, update_of_ne hj]
    have hx : (x.setter i).load = 1 := by rw [hp]; rfl
    have hidle : (y.setter i).load = 0 := by rw [hsetter, update_self]; rfl
    have htotal := h.total
    omega
  · rw [hpub]
    rcases hrec j c with heq | ⟨-, -, heq⟩
    · rw [heq]
      exact (h.bound j c).trans (Nat.le_succ _)
    · rw [heq]
      exact hb
  · rw [hsetter] at hq
    rcases eq_or_ne j i with rfl | hne
    · rw [update_self] at hq
      cases hq
    · rw [update_of_ne hne] at hq
      obtain ⟨ha', hb', ho', hc'⟩ := h.pends j g' prior' hq
      exact ⟨ha'.grow hg, hb'.trans (by omega), by rw [hcur' j hne]; exact ho', (hother j hne).trans hc'⟩
  · rcases hrec j c with heq | ⟨rfl, -, heq⟩
    · rw [heq]
      rcases eq_or_ne j i with rfl | hne
      · rw [hcur]
        exact (h.mono j c).trans ho
      · rw [hcur' j hne]
        exact h.mono j c
    · rw [heq, hcur]
  · rcases hrec j (c + 1) with heq | ⟨rfl, hc1, heq⟩
    · rcases Nat.lt_or_ge c (x.count j) with hlt' | hge
      · rw [heq]
        exact ⟨(h.after j c hlt').1.grow hg, (h.after j c hlt').2⟩
      · -- the new record is not as it was before
        rcases eq_or_ne j i with rfl | hne
        · obtain rfl : c = x.count j := by omega
          have hnew : y.record j (x.count j + 1) = ⟨g, offset, prior⟩ := by
            rw [← hself]
            exact hcur
          rw [hnew]
          exact ⟨ha.grow hg, hc.ge⟩
        · rw [hother j hne] at hlt
          exact absurd hlt (Nat.not_lt.2 hge)
    · rw [heq]
      exact ⟨ha.grow hg, hc.ge.trans (by omega)⟩

theorem Ordered.step (h : Ordered n x) (hw : Whole n x) (hb : x.begun < 2 ^ 32) (hd : Does n x y) : Ordered n y := by
  have hlt : ∀ {i : Nat} {p : Setter}, x.setter i = p → p ≠ .idle → i < n := fun hp hne => h.lt_of_setter (by rw [hp]; exact hne)
  cases hd with
  | start r i hi => exact h.same rfl h.nodes h.total h.pends
  | read r s s' hr hf hl => exact h.same rfl h.nodes h.total h.pends
  | begin i hi hp =>
    refine h.same rfl (fun j hj => ?_) ?_ fun j g prior hq => ?_
    · dsimp only [St.setSetter]
      rw [update_of_ne (by omega)]
      exact h.nodes j hj
    · obtain ⟨y, hy⟩ : ∃ y : St, y = { x.setSetter i (.scanning (.begin i x.count)) with begun := x.begun + 1 } := ⟨_, rfl⟩
      have hsetter : y.setter = update x.setter i (.scanning (.begin i x.count)) := by rw [hy]; rfl
      have hcount : ∀ j, y.count j = x.count j := fun j => by rw [hy]; rfl
      have hbal : y.under n + (x.count i + (x.setter i).load) = x.under n + (y.count i + (y.setter i).load) :=
        sum_balance (f := fun j => x.count j + (x.setter j).load) (g := fun j => y.count j + (y.setter j).load) hi
          fun j hj => by rw [hcount, hsetter, update_of_ne hj]
      have hidle : (x.setter i).load = 0 := by rw [hp]; rfl
      have hone : (y.setter i).load = 1 := by rw [hsetter, update_self]; rfl
      have htotal := h.total
      have hci := hcount i
      rw [← hy]
      rw [show y.begun = x.begun + 1 by rw [hy]]
      omega
    · dsimp only [St.setSetter] at hq
      rcases eq_or_ne j i with rfl | hne
      · rw [update_self] at hq
        cases hq
      · rw [update_of_ne hne] at hq
        exact h.pends j g prior hq
  | scan i s s' hp hf hl => exact h.setSetter rfl rfl rfl (hlt hp (by simp)) (by rw [hp]; rfl) fun g prior hq => by cases hq
  | scanned i s hp hf =>
    refine h.setSetter rfl rfl rfl (hlt hp (by simp)) (by rw [hp]; rfl) fun g prior hq => ?_
    cases hq
    exact h.scanned hw hb hp hf
  | fetch i g prior hp =>
    exact h.setSetter rfl rfl rfl (hlt hp (by simp)) (by rw [hp]; rfl) fun g' prior' hq =>
      h.pends i g' prior' (by rw [hp]; exact hq)
  | gen i g q prior hp =>
    exact h.setSetter rfl rfl rfl (hlt hp (by simp)) (by rw [hp]; rfl) fun g' prior' hq =>
      h.pends i g' prior' (by rw [hp]; exact hq)
  | lo i g q offset prior hp =>
    exact h.setSetter rfl rfl rfl (hlt hp (by simp)) (by rw [hp]; rfl) fun g' prior' hq =>
      h.pends i g' prior' (by rw [hp]; exact hq)
  | hi i g q offset prior hp =>
    exact h.setSetter rfl rfl rfl (hlt hp (by simp)) (by rw [hp]; rfl) fun g' prior' hq =>
      h.pends i g' prior' (by rw [hp]; exact hq)
  | publish i g q offset prior hp => exact h.publish hp

theorem begun_le (hd : Does n x y) : x.begun ≤ y.begun := by
  cases hd with
  | begin i hi hp => exact Nat.le_succ _
  | _ => exact le_rfl

theorem Reachable.ordered (h : Reachable n x) (hb : x.begun < 2 ^ 32) : Ordered n x := by
  induction h with
  | boot => exact ordered_boot n
  | step a hx hs ih =>
    have hd := step_does hs
    have hb' := (begun_le hd).trans_lt hb
    exact (ih hb').step hx.whole hb' hd

/-! ### A read between sets answers -/

def St.run (n : Nat) (x : St) (acts : List Act) : Option St := acts.foldlM (St.step n) x

theorem Reachable.run {acts : List Act} (h : Reachable n x) (hr : x.run n acts = some y) : Reachable n y := by
  induction acts generalizing x with
  | nil =>
    cases hr
    exact h
  | cons a acts ih =>
    obtain ⟨z, hz, hr⟩ := Option.bind_eq_some_iff.1 hr
    exact ih (.step a h hz) hr

theorem run_append {acts acts' : List Act} {z : St} (h : x.run n acts = some y) (h' : y.run n acts' = some z) :
    x.run n (acts ++ acts') = some z := by
  unfold St.run at h h' ⊢
  rw [List.foldlM_append, h]
  exact h'

/-- The state with another scan of the reader. -/
def St.reads (x : St) (r : Nat) (s : Scan) : St := { x with reader := update x.reader r (some s) }

theorem step_read {r : Nat} {s' : Scan} (hf : s.finished n = false) (hl : s.load n (x.wall s.slot) (x.count s.slot) = some s') :
    (x.reads r s).step n (.read r) = some (x.reads r s') := by
  have hr : (x.reads r s).reader r = some s := update_self ..
  have hl' : s.load n ((x.reads r s).wall s.slot) ((x.reads r s).count s.slot) = some s' := hl
  unfold St.step
  dsimp only
  rw [hr]
  dsimp only
  rw [hf, hl', if_neg Bool.false_ne_true, Option.map_some]
  unfold St.reads
  rw [update_idem]

/-- A scan at a stage of the read of a record that does not move. -/
def Scan.at (s : Scan) (count : Nat) (p : Stage) : Scan := { s with stage := p, stamp := count }

theorem run_read {r : Nat} (hs : s.stage = .seq) (hf : s.finished n = false) :
    ∃ (p : Stage) (v : WallRead), (x.reads r s).run n (List.replicate 5 (.read r)) =
      some (x.reads r ((s.at (x.count s.slot) p).took v)) := by
  obtain ⟨w, hw⟩ : ∃ w, w = x.wall s.slot := ⟨_, rfl⟩
  obtain ⟨v, hv⟩ : ∃ v, v = w.value (parity w.seq) := ⟨_, rfl⟩
  obtain ⟨g, hg⟩ : ∃ g, g = if 1 < n then v.gen else 0 := ⟨_, rfl⟩
  obtain ⟨c, hc⟩ : ∃ c, c = x.count s.slot := ⟨_, rfl⟩
  have h1 : (x.reads r s).step n (.read r) = some (x.reads r (s.at c (.gen w.seq))) :=
      step_read hf (by rw [Scan.load, hs, hw, hc]; rfl)
  have h2 : (x.reads r (s.at c (.gen w.seq))).step n (.read r) = some (x.reads r (s.at c (.lo w.seq g))) :=
    step_read hf (by rw [hg, hv, hw]; rfl)
  have h3 : (x.reads r (s.at c (.lo w.seq g))).step n (.read r) = some (x.reads r (s.at c (.hi w.seq g v.lo))) :=
    step_read hf (by rw [hv, hw]; rfl)
  have h4 : (x.reads r (s.at c (.hi w.seq g v.lo))).step n (.read r) = some (x.reads r (s.at c (.again w.seq g v.lo v.hi))) :=
    step_read hf (by rw [hv, hw]; rfl)
  have h5 : (x.reads r (s.at c (.again w.seq g v.lo v.hi))).step n (.read r) =
      some (x.reads r ((s.at c (.again w.seq g v.lo v.hi)).took ⟨g, join v.lo v.hi⟩)) := by
    refine step_read hf ?_
    have hlt : x.count s.slot < c + 2 ^ 32 := hc ▸ Nat.lt_add_of_pos_right (Nat.two_pow_pos 32)
    have hseq : (x.wall s.slot).seq = w.seq := by rw [hw]
    exact (if_pos hlt).trans (congrArg some (if_pos hseq))
  refine ⟨.again w.seq g v.lo v.hi, ⟨g, join v.lo v.hi⟩, ?_⟩
  unfold St.run
  simp only [List.replicate, List.foldlM_cons, List.foldlM_nil, h1, h2, h3, h4, h5, Option.bind_eq_bind, Option.bind_some, ← hc]
  rfl

theorem took_fields (s : Scan) (v : WallRead) : (s.took v).own = false ∧ (s.took v).stage = .seq ∧ (s.took v).start = s.start ∧
    (s.took v).self = s.self ∧ (s.own = true ∨ s.slot < (s.took v).slot) := by
  unfold Scan.took
  split
  next hown => exact ⟨rfl, rfl, rfl, rfl, .inl hown⟩
  · have hlt : s.slot < if s.slot + 1 = s.self then s.slot + 1 + 1 else s.slot + 1 := by
      split <;> omega
    split
    · exact ⟨rfl, rfl, rfl, rfl, .inr hlt⟩
    · exact ⟨rfl, rfl, rfl, rfl, .inr hlt⟩

/-- The records a scan is still to read. -/
def Scan.left (n : Nat) (s : Scan) : Nat := if s.own then n + 1 else n - s.slot

theorem exists_finished {r : Nat} (k : Nat) (hk : s.left n ≤ k) (hs : s.stage = .seq) :
    ∃ m s', (x.reads r s).run n (List.replicate m (.read r)) = some (x.reads r s') ∧ s'.finished n = true ∧ s'.start = s.start ∧
      s'.self = s.self := by
  induction k generalizing s with
  | zero =>
    refine ⟨0, s, rfl, ?_, rfl, rfl⟩
    unfold Scan.left at hk
    unfold Scan.finished
    rcases hown : s.own with _ | _
    · rw [hown] at hk
      simpa using Nat.sub_eq_zero_iff_le.1 (Nat.le_zero.1 hk)
    · rw [hown] at hk
      exact absurd hk (Nat.not_succ_le_zero n)
  | succ k ih =>
    rcases hf : s.finished n with _ | _
    · obtain ⟨p, v, hrun⟩ := run_read (x := x) (r := r) hs hf
      obtain ⟨hown, hstage, hstart, hself, hslot⟩ := took_fields (s.at (x.count s.slot) p) v
      have hleft : ((s.at (x.count s.slot) p).took v).left n ≤ k := by
        unfold Scan.left at hk ⊢
        rw [hown]
        rcases hslot with hslot | hslot
        · rw [show s.own = true from hslot] at hk
          have : n + 1 ≤ k + 1 := hk
          exact (Nat.sub_le ..).trans (Nat.le_of_succ_le_succ this)
        · have hlt : s.slot < ((s.at (x.count s.slot) p).took v).slot := hslot
          rcases hso : s.own with _ | _
          · rw [hso] at hk
            have hk : n - s.slot ≤ k + 1 := hk
            have hn : s.slot < n := by
              unfold Scan.finished at hf
              rw [hso] at hf
              exact Nat.lt_of_not_le fun hle => by simp [hle] at hf
            show n - _ ≤ k
            omega
          · rw [hso] at hk
            have hk : n + 1 ≤ k + 1 := hk
            show n - _ ≤ k
            omega
      obtain ⟨m, s', hrun', hfin, hst', hse'⟩ := ih hleft hstage
      refine ⟨5 + m, s', ?_, hfin, hst'.trans hstart, hse'.trans hself⟩
      rw [List.replicate_add]
      exact run_append hrun hrun'
    · exact ⟨0, s, rfl, hf, rfl, rfl⟩

/-! ### Agreement -/

/-- No set was published since the scan began. -/
def Quiet (n : Nat) (x : St) (s : Scan) : Prop := ∀ i < n, x.count i = s.start i

theorem Reads.newest (h : Reads n x s) (hf : s.finished n = true) (hq : Quiet n x s) :
    s.bestStamp = x.count s.bestNode ∧ ∀ j < n, Behind (x.cur j).gen j (x.cur s.bestNode).gen s.bestNode := by
  obtain ⟨hown, hslot⟩ : s.own = false ∧ n ≤ s.slot := by simpa [Scan.finished] using hf
  have hnode := h.node hown
  have hstamp : s.bestStamp = x.count s.bestNode := by
    obtain ⟨hle, hge⟩ := h.stamp hown
    exact le_antisymm hge ((hq _ hnode).le.trans hle)
  refine ⟨hstamp, fun j hj => ?_⟩
  have hbest : s.best.gen = (x.cur s.bestNode).gen := by rw [h.best hown, hstamp, St.cur]
  rw [← hbest]
  exact h.seen hown j hj (.inr (hj.trans_le hslot)) (hq j hj)

/-- A read answers what some one set of a record published, or the zeros of a record that was not set, and that was
current while the read ran. Between sets a read on any node comes to its end and answers one and the same set. While
there are fewer than `2 ^ 32` sets, of two sets that the records hold the one that began after the other was published
is preferred, and the one that is read was not published before another began. -/
theorem reads_agree (h : Reachable n x) :
    (∀ r s, x.reader r = some s → s.finished n = true →
      s.bestNode < n ∧ s.start s.bestNode ≤ s.bestStamp ∧ s.bestStamp ≤ x.count s.bestNode ∧
        s.best.gen = (x.record s.bestNode s.bestStamp).gen ∧ s.best.offset = (x.record s.bestNode s.bestStamp).offset) ∧
    (∀ r node, node < n → ∃ m y s, x.run n (.start r node :: List.replicate m (.read r)) = some y ∧ y.reader r = some s ∧
      s.self = node ∧ s.finished n = true ∧ Quiet n y s ∧ y.sets = x.sets) ∧
    (∀ r s r' s', x.reader r = some s → x.reader r' = some s' → s.finished n = true → s'.finished n = true →
      Quiet n x s → Quiet n x s' → s.bestNode = s'.bestNode ∧ s.bestStamp = s'.bestStamp ∧ s.best = s'.best) ∧
    (x.begun < 2 ^ 32 →
      (∀ i < n, ∀ j < n, j ≠ i → 0 < x.count i → (x.cur i).prior j = x.count j → (x.cur j).gen < (x.cur i).gen) ∧
      ∀ r s, x.reader r = some s → s.finished n = true → Quiet n x s →
        ∀ i < n, ∀ c < x.count i, (x.record i (c + 1)).prior s.bestNode < s.bestStamp) := by
  have hw := h.whole
  have hown : ∀ {s : Scan}, s.finished n = true → s.own = false := fun hf => by
    unfold Scan.finished at hf
    rw [Bool.and_eq_true, Bool.not_eq_true'] at hf
    exact hf.1
  refine ⟨fun r s hr hf => ?_, fun r node hnode => ?_, fun r s r' s' hr hr' hf hf' hq hq' => ?_,
    fun hb => ⟨fun i hi j hj hne hc hp => ?_, fun r s hr hf hq i hi c hc => ?_⟩⟩
  · have hs := hw.readers r s hr
    have hbest := hs.best (hown hf)
    exact ⟨hs.node (hown hf), (hs.stamp (hown hf)).1, (hs.stamp (hown hf)).2, congrArg WallRead.gen hbest,
      congrArg WallRead.offset hbest⟩
  · have hstart : x.step n (.start r node) = some (x.reads r (.begin node x.count)) := if_pos hnode
    obtain ⟨m, s, hrun, hfin, hst, hself⟩ := exists_finished (n := n) (x := x) (r := r) (s := .begin node x.count)
        (n + 1) le_rfl rfl
    refine ⟨m, x.reads r s, s, ?_, update_self .., hself, hfin, fun i _ => (congrFun hst i).symm, rfl⟩
    have hone : x.run n [.start r node] = some (x.reads r (.begin node x.count)) := by
      unfold St.run
      rw [List.foldlM_cons, hstart]
      rfl
    exact run_append hone hrun
  · have hs := hw.readers r s hr
    have hs' := hw.readers r' s' hr'
    obtain ⟨hc, hall⟩ := hs.newest hf hq
    obtain ⟨hc', hall'⟩ := hs'.newest hf' hq'
    have hnode := (hall' _ (hs.node (hown hf))).antisymm (hall _ (hs'.node (hown hf')))
    have hstamp : s.bestStamp = s'.bestStamp := by rw [hc, hc', hnode]
    exact ⟨hnode, hstamp, by rw [hs.best (hown hf), hs'.best (hown hf'), hnode, hstamp]⟩
  · obtain ⟨c, hc⟩ := Nat.exists_eq_succ_of_ne_zero hc.ne'
    have ha := ((h.ordered hb).after i c (by omega)).1
    have hcur : x.cur i = x.record i (c + 1) := by rw [St.cur, hc]
    rw [hcur] at hp ⊢
    exact ha.gen j hj hne hp.symm
  · have hs := hw.readers r s hr
    have ho := h.ordered hb
    obtain ⟨hstamp, hall⟩ := hs.newest hf hq
    obtain ⟨hafter, hprior⟩ := ho.after i c hc
    rw [hstamp]
    rcases eq_or_ne s.bestNode i with heq | hne
    · rw [heq]
      exact hprior.trans_lt hc
    · refine lt_of_le_of_ne (hafter.le _) fun heq => ?_
      -- the later set saw the one before it, and its own record is no further behind
      have hlt := BitVec.lt_def.1 (hafter.gen _ (hs.node (hown hf)) hne heq.symm)
      have hle := ho.mono i (c + 1)
      rcases hall i hi with hback | ⟨hback, -⟩
      · exact absurd (BitVec.lt_def.1 hback) (by omega)
      · rw [hback] at hle
        omega

/-- A whole set on a node, of two, with no set beside it. -/
def oneSet (node : Nat) (offset : BitVec 64) : List Act :=
  .begin node :: (List.replicate 11 (.scan node) ++ List.replicate 5 (.store node offset))

/-- Node 1 sets the clock after the second set of node 0, whose record then moves under each of its tries. -/
def passedOver : List Act :=
  oneSet 0 1 ++ oneSet 0 2 ++ .begin 1 :: List.replicate 5 (.scan 1) ++
    (List.replicate peerTries (List.replicate 4 (.scan 1) ++ oneSet 0 3 ++ [.scan 1])).flatten ++
    .scan 1 :: List.replicate 5 (.store 1 9)

theorem exists_reachable (acts : List Act) (p : St → Bool) (h : (({} : St).run n acts).map p = some true) :
    ∃ y, Reachable n y ∧ p y = true := by
  obtain ⟨y, hy, hp⟩ := Option.map_eq_some_iff.1 h
  exact ⟨y, Reachable.boot.run hy, hp⟩

/-- Every read would answer what a set published, and a set that began after another was published would have the greater
generation: there is a read in front of the first set, and a set that did not get to read the record of the other. -/
theorem boot_read_and_passed_over :
    (∃ x s, Reachable 2 x ∧ x.reader 0 = some s ∧ s.finished 2 = true ∧ x.sets 0 = [] ∧ x.sets 1 = []) ∧
    (∃ x, Reachable 2 x ∧ 0 < x.count 1 ∧ 2 ≤ (x.record 1 1).prior 0 ∧ (x.record 1 1).gen < (x.record 0 2).gen) := by
  constructor
  · obtain ⟨x, hx, hp⟩ := exists_reachable (n := 2) (.start 0 0 :: List.replicate 10 (.read 0))
      (fun x => (x.reader 0).any (Scan.finished 2) && (x.sets 0).isEmpty && (x.sets 1).isEmpty) (by decide +kernel)
    simp only [Bool.and_eq_true, Option.any_eq_true, List.isEmpty_iff] at hp
    obtain ⟨⟨⟨s, hs, hf⟩, h0⟩, h1⟩ := hp
    exact ⟨x, s, hx, hs, hf, h0, h1⟩
  · obtain ⟨x, hx, hp⟩ := exists_reachable (n := 2) passedOver
      (fun x => decide (0 < x.count 1 ∧ 2 ≤ (x.record 1 1).prior 0 ∧ (x.record 1 1).gen < (x.record 0 2).gen)) (by decide +kernel)
    exact ⟨x, hx, of_decide_eq_true hp⟩

/-- After one set of node 0 node 1 reads it. -/
theorem reads_agree_one_set : ∃ x s, Reachable 2 x ∧ x.reader 7 = some s ∧ s.self = 1 ∧ s.finished 2 = true ∧ s.bestNode = 0 ∧
    s.best.offset = (x.record 0 1).offset ∧ (x.record 0 1).offset = 5 := by
  obtain ⟨x, hx, hp⟩ := exists_reachable (n := 2) (oneSet 0 5 ++ .start 7 1 :: List.replicate 10 (.read 7))
    (fun x => (x.reader 7).any (fun s : Scan => decide (s.self = 1 ∧ s.finished 2 = true ∧ s.bestNode = 0 ∧ s.bestStamp = 1)) &&
      decide ((x.record 0 1).offset = 5)) (by decide +kernel)
  simp only [Bool.and_eq_true, Option.any_eq_true, decide_eq_true_eq] at hp
  obtain ⟨⟨s, hs, hself, hf, hnode, hstamp⟩, ho⟩ := hp
  obtain ⟨-, -, -, -, hoff⟩ := (reads_agree hx).1 7 s hs hf
  rw [hnode, hstamp] at hoff
  exact ⟨x, s, hx, hs, hself, hf, hnode, hoff, ho⟩

end KickOS.Realtime
