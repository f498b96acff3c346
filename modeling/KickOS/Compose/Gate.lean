import KickOS.Compose.Place

/-! The gate rows give every node the bytes it holds through a gate and no other, whatever rows were merged. -/

namespace KickOS.Compose

variable {P C : Type} {rows : List (Row P)} {row : Row P} {grants : List (Nat × Grant P)} {m : Manifest}
    {k nodes i : Nat} {a : Access} {x : Nat} {unit : GateUnit}

/-! ### Bytes -/

/-- A node holds a byte with an access through rows of a gate. -/
def Holds (rows : List (Row P)) (gate k : Nat) (a : Access) (x : Nat) : Prop :=
  ∃ row ∈ rows, row.gate = gate ∧ row.node = k ∧ row.access = a ∧ row.base ≤ x ∧ x < row.stop

instance : Decidable (Holds rows i k a x) := inferInstanceAs (Decidable (∃ row ∈ rows, _))

theorem not_holds_nil : ¬ Holds ([] : List (Row P)) i k a x := by
  rintro ⟨row, hr, -⟩
  exact absurd hr List.not_mem_nil

theorem holds_perm {rows' : List (Row P)} (h : rows.Perm rows') : Holds rows i k a x ↔ Holds rows' i k a x :=
  exists_congr fun _ => and_congr_left fun _ => h.mem_iff

theorem holds_cons : Holds (row :: rows) i k a x ↔
    (row.gate = i ∧ row.node = k ∧ row.access = a ∧ row.base ≤ x ∧ x < row.stop) ∨ Holds rows i k a x := by
  unfold Holds
  rw [List.exists_mem_cons_iff]

theorem holds_append {rows' : List (Row P)} : Holds (rows ++ rows') i k a x ↔ Holds rows i k a x ∨ Holds rows' i k a x := by
  unfold Holds
  simp only [List.mem_append, or_and_right, exists_or]

theorem holds_absorb {merged : List (Row P)} (hg : ∀ r ∈ merged, r.gate = row.gate) :
    Holds (absorb merged row) i k a x ↔ Holds merged i k a x ∨ Holds [row] i k a x := by
  unfold absorb
  cases merged with
  | nil => simp [Holds]
  | cons last rest =>
    dsimp only
    split
    next ht =>
      obtain ⟨hnode, haccess, hstop⟩ := of_decide_eq_true ht
      have hgate := hg last List.mem_cons_self
      unfold Row.stop at hstop
      simp only [holds_cons, Row.stop, hgate, hnode, haccess]
      constructor
      · rintro (⟨h1, h2, h3, h4, h5⟩ | h)
        · rcases Nat.lt_or_ge x row.base with hlt | hge
          · exact .inl (.inl ⟨h1, h2, h3, h4, by omega⟩)
          · exact .inr (.inl ⟨h1, h2, h3, hge, by omega⟩)
        · exact .inl (.inr h)
      · rintro ((⟨h1, h2, h3, h4, h5⟩ | h) | (⟨h1, h2, h3, h4, h5⟩ | h))
        · exact .inl ⟨h1, h2, h3, h4, by omega⟩
        · exact .inr h
        · exact .inl ⟨h1, h2, h3, by omega, by omega⟩
        · exact absurd h not_holds_nil
    · rw [holds_cons, holds_cons, holds_cons]
      have hnone := not_holds_nil (P := P) (i := i) (k := k) (a := a) (x := x)
      tauto

theorem gate_absorb {merged : List (Row P)} (hg : ∀ r ∈ merged, r.gate = row.gate) :
    ∀ r ∈ absorb merged row, r.gate = row.gate := by
  unfold absorb
  cases merged with
  | nil => exact fun r hr => by rw [List.mem_singleton.1 hr]
  | cons last rest =>
    dsimp only
    split
    · refine List.forall_mem_cons.2 ⟨hg last List.mem_cons_self, fun r hr => hg r (List.mem_cons_of_mem _ hr)⟩
    · exact List.forall_mem_cons.2 ⟨rfl, hg⟩

theorem holds_foldl_absorb {merged : List (Row P)} {g : Nat} (hm : ∀ r ∈ merged, r.gate = g) (hr : ∀ r ∈ rows, r.gate = g) :
    (∀ i k a x, Holds (rows.foldl absorb merged) i k a x ↔ Holds merged i k a x ∨ Holds rows i k a x) ∧
      ∀ r ∈ rows.foldl absorb merged, r.gate = g := by
  induction rows generalizing merged with
  | nil => exact ⟨fun i k a x => ⟨.inl, fun h => h.resolve_right not_holds_nil⟩, hm⟩
  | cons row rows ih =>
    obtain ⟨hrow, hrows⟩ := List.forall_mem_cons.1 hr
    have hsame : ∀ r ∈ merged, r.gate = row.gate := fun r h => (hm r h).trans hrow.symm
    have hnext : ∀ r ∈ absorb merged row, r.gate = g := fun r h => (gate_absorb hsame r h).trans hrow
    obtain ⟨hiff, hall⟩ := ih hnext hrows
    refine ⟨fun i k a x => ?_, hall⟩
    rw [List.foldl_cons, hiff, holds_absorb hsame, or_assoc, ← holds_append]
    rfl

theorem holds_coalesce {g : Nat} (hr : ∀ r ∈ rows, r.gate = g) :
    (∀ i k a x, Holds (coalesce rows) i k a x ↔ Holds rows i k a x) ∧ ∀ r ∈ coalesce rows, r.gate = g := by
  have hperm := List.perm_insertionSort Row.Le rows
  have hnil : ∀ r ∈ ([] : List (Row P)), r.gate = g := fun _ h => absurd h List.not_mem_nil
  have hsorted : ∀ r ∈ rows.insertionSort Row.Le, r.gate = g := fun r h => hr r (hperm.mem_iff.1 h)
  obtain ⟨hiff, hall⟩ := holds_foldl_absorb hnil hsorted
  unfold coalesce
  refine ⟨fun i k a x => ?_, fun r h => hall r (List.mem_reverse.1 h)⟩
  rw [holds_perm (List.reverse_perm _), hiff, or_iff_right not_holds_nil]
  exact holds_perm hperm

/-! ### What a node holds through a gate -/

/-- The byte is in a grant of node `k` that the unit fronts. -/
def Granted (grants : List (Nat × Grant P)) (unit : GateUnit) (k : Nat) (a : Access) (x : Nat) : Prop :=
  a = .rw ∧ ∃ e ∈ grants, e.1 = k ∧ fronted unit e.2 = true ∧ e.2.base ≤ x ∧ x < e.2.stop

instance : Decidable (Granted grants unit k a x) := inferInstanceAs (Decidable (_ ∧ ∃ e ∈ grants, _))

/-- The byte is in a range the kernel of every node but node 0 holds through the unit. -/
def KernelHeld (unit : GateUnit) (a : Access) (x : Nat) : Prop := ∃ r ∈ unit.kernel, r.2.2 = a ∧ r.1 ≤ x ∧ x < r.1 + r.2.1

/-- The byte is in the slice of node `k`, which the unit fronts. -/
def SliceHeld (m : Manifest) (unit : GateUnit) (k : Nat) (a : Access) (x : Nat) : Prop :=
  ∃ slices window, m.ampSlices = some slices ∧ m.ampWindow = some window ∧ a = .rwx ∧
    inside unit.memory (slices.1 + k * slices.2) slices.2 = true ∧ slices.1 + k * slices.2 ≤ x ∧
      x < slices.1 + k * slices.2 + slices.2

/-- The byte is in the shared window, which the unit fronts. -/
def WindowHeld (m : Manifest) (unit : GateUnit) (a : Access) (x : Nat) : Prop :=
  ∃ slices window, m.ampSlices = some slices ∧ m.ampWindow = some window ∧ a = .rw ∧
    inside unit.memory window.1 window.2 = true ∧ window.1 ≤ x ∧ x < window.1 + window.2

/-- What the kernel of a node other than node 0 holds. -/
def OwnHeld (m : Manifest) (unit : GateUnit) (k : Nat) (a : Access) (x : Nat) : Prop :=
  KernelHeld unit a x ∨ SliceHeld m unit k a x ∨ WindowHeld m unit a x

theorem exists_kernelRanges : (∃ r ∈ kernelRanges m unit k, r.2.2 = a ∧ r.1 ≤ x ∧ x < r.1 + r.2.1) ↔ OwnHeld m unit k a x := by
  unfold kernelRanges OwnHeld
  simp only [List.mem_append, or_and_right, exists_or]
  rw [or_comm]
  refine or_congr Iff.rfl ?_
  unfold SliceHeld WindowHeld
  rcases m.ampSlices with _ | slices
  · simp
  · rcases m.ampWindow with _ | window
    · simp
    · simp only [List.mem_filter, List.mem_cons, List.not_mem_nil, or_false, Option.some.injEq, and_assoc]
      constructor
      · rintro ⟨r, rfl | rfl, hin, rfl, hx⟩
        · exact .inl ⟨slices, window, rfl, rfl, rfl, hin, hx⟩
        · exact .inr ⟨slices, window, rfl, rfl, rfl, hin, hx⟩
      · rintro (⟨s, w, rfl, rfl, rfl, hin, hx⟩ | ⟨s, w, rfl, rfl, rfl, hin, hx⟩)
        · exact ⟨_, .inl rfl, hin, rfl, hx⟩
        · exact ⟨_, .inr rfl, hin, rfl, hx⟩

theorem gate_gateRows (m : Manifest) (grants : List (Nat × Grant P)) (nodes i : Nat) (unit : GateUnit) :
    ∀ r ∈ gateRows m grants nodes i unit, r.gate = i := by
  intro r hr
  unfold gateRows at hr
  simp only [List.mem_append, List.mem_flatMap, List.mem_map] at hr
  obtain ⟨_, _, _, _, rfl⟩ | ⟨_, _, rfl⟩ := hr
  · rfl
  · rfl

theorem holds_gateRows : Holds (gateRows m grants nodes i unit) i k a x ↔
    Granted grants unit k a x ∨ (0 < k ∧ k < nodes) ∧ OwnHeld m unit k a x := by
  unfold gateRows
  rw [holds_append, or_comm]
  refine or_congr ?_ ?_
  · constructor
    · rintro ⟨row, hrow, -, hk, ha, hx⟩
      obtain ⟨e, he, rfl⟩ := List.mem_map.1 hrow
      obtain ⟨hmem, hf⟩ := List.mem_filter.1 he
      exact ⟨ha.symm, e, hmem, hk, hf, hx⟩
    · rintro ⟨rfl, e, hmem, rfl, hf, hx⟩
      exact ⟨_, List.mem_map_of_mem (List.mem_filter.2 ⟨hmem, hf⟩), rfl, rfl, rfl, hx⟩
  · rw [← exists_kernelRanges]
    constructor
    · rintro ⟨row, hrow, -, hk, ha, hx⟩
      obtain ⟨j, hj, hmem⟩ := List.mem_flatMap.1 hrow
      obtain ⟨r, hr, rfl⟩ := List.mem_map.1 hmem
      obtain rfl : j = k := hk
      obtain ⟨h1, h2⟩ := List.mem_range'_1.1 hj
      exact ⟨⟨by omega, by omega⟩, r, hr, ha, hx⟩
    · rintro ⟨⟨h1, h2⟩, r, hr, ha, hx⟩
      exact ⟨_, List.mem_flatMap.2 ⟨k, List.mem_range'_1.2 ⟨by omega, by omega⟩, List.mem_map_of_mem hr⟩, rfl, rfl, ha, hx⟩

/-- What the rows of a gate of regions come to. -/
structure RegionGate (gate : PartitionGate) (m : Manifest) (grants : List (Nat × Grant P)) (nodes : Nat)
    (rows : List (Row P)) : Prop where
  fronted : ∀ e ∈ grants, ∃ unit ∈ gate.gates, fronted unit e.2 = true
  holds : ∀ i k a x, Holds rows i k a x ↔ ∃ unit, gate.gates[i]? = some unit ∧
    (Granted grants unit k a x ∨ (0 < k ∧ k < nodes) ∧ OwnHeld m unit k a x)

/-- What the rows of a gate of registers come to: a register is given to the one node that holds its peripheral. -/
structure RegisterGate (grants : List (Nat × Grant P)) (rows : List (Row P)) : Prop where
  once : (rows.map Row.register).Nodup
  source : ∀ row ∈ rows, ∃ e ∈ grants, e.2.register = some row.register ∧ e.1 = row.node ∧ e.2.base = row.base ∧
    e.2.size = row.size
  given : ∀ e ∈ grants, ∃ row ∈ rows, e.2.register = some row.register ∧ e.1 = row.node

theorem regionGate_of_deriveGate {gate : PartitionGate} (hk : gate.kind ≠ .accessctrl)
    (h : (deriveGate gate m grants nodes).2 = []) : RegionGate gate m grants nodes
    (deriveGate gate m grants nodes).1 := by
  unfold deriveGate at h ⊢
  rw [if_neg hk] at h ⊢
  dsimp only at h ⊢
  rw [List.append_eq_nil_iff, List.map_eq_nil_iff] at h
  refine ⟨fun e he => ?_, fun i k a x => ?_⟩
  · have hf := List.filter_eq_nil_iff.1 h.1 e he
    rw [Bool.not_eq_true', Bool.not_eq_false, List.any_eq_true] at hf
    exact hf
  · constructor
    · rintro ⟨row, hrow, hgate, hrest⟩
      obtain ⟨e, he, hmem⟩ := List.mem_flatMap.1 hrow
      obtain ⟨hiff, hall⟩ := holds_coalesce (gate_gateRows m grants nodes e.2 e.1)
      obtain rfl : e.2 = i := (hall row hmem).symm.trans hgate
      refine ⟨e.1, List.mem_zipIdx_iff_getElem?.1 he, ?_⟩
      rw [← holds_gateRows (i := e.2), ← hiff]
      exact ⟨row, hmem, hgate, hrest⟩
    · rintro ⟨unit, hunit, hheld⟩
      rw [← holds_gateRows (i := i), ← (holds_coalesce (gate_gateRows m grants nodes i unit)).1] at hheld
      obtain ⟨row, hmem, hrest⟩ := hheld
      exact ⟨row, List.mem_flatMap.2 ⟨(unit, i), List.mem_zipIdx_iff_getElem?.2 hunit, hmem⟩, hrest⟩

/-! ### Registers -/

/-- The rows of the grants so far. -/
structure Assigns (es : List (Nat × Grant P)) (s : List (Row P) × List (Refusal P)) : Prop where
  once : (s.1.map Row.register).Nodup
  source : ∀ row ∈ s.1, ∃ e ∈ es, e.2.register = some row.register ∧ e.1 = row.node ∧ e.2.base = row.base ∧ e.2.size = row.size
  given : s.2 = [] → ∀ e ∈ es, ∃ row ∈ s.1, e.2.register = some row.register ∧ e.1 = row.node

theorem Assigns.step {es : List (Nat × Grant P)} {s : List (Row P) × List (Refusal P)} (h : Assigns es s) (e : Nat × Grant P) :
    Assigns (es ++ [e]) (assign s e) := by
  have hlast : e ∈ es ++ [e] := List.mem_append_right _ (List.mem_singleton.2 rfl)
  have hsource : ∀ row ∈ s.1, ∃ f ∈ es ++ [e], f.2.register = some row.register ∧ f.1 = row.node ∧ f.2.base = row.base ∧
      f.2.size = row.size := fun row hrow => by
    obtain ⟨f, hf, hrest⟩ := h.source row hrow
    exact ⟨f, List.mem_append_left _ hf, hrest⟩
  unfold assign
  rcases hreg : e.2.register with _ | register
  · exact ⟨h.once, hsource, fun hr => absurd hr (by simp)⟩
  · dsimp only
    rcases hfind : owner s.1 register with _ | held
    · have hnew : ∀ row ∈ s.1, row.register ≠ register := fun row hrow heq => by
        have := List.find?_eq_none.1 hfind row hrow
        exact this (decide_eq_true heq)
      refine ⟨?_, fun row hrow => ?_, fun hr f hf => ?_⟩
      · rw [List.map_append, List.nodup_append']
        refine ⟨h.once, List.nodup_singleton _, fun q hq hq' => ?_⟩
        obtain ⟨row, hrow, rfl⟩ := List.mem_map.1 hq
        exact hnew row hrow (List.mem_singleton.1 hq')
      · rcases List.mem_append.1 hrow with hrow | hrow
        · exact hsource row hrow
        · rw [List.mem_singleton.1 hrow]
          exact ⟨e, hlast, hreg, rfl, rfl, rfl⟩
      · rcases List.mem_append.1 hf with hf | hf
        · obtain ⟨row, hrow, hrest⟩ := h.given hr f hf
          exact ⟨row, List.mem_append_left _ hrow, hrest⟩
        · rw [List.mem_singleton.1 hf]
          exact ⟨_, List.mem_append_right _ (List.mem_singleton.2 rfl), hreg, rfl⟩
    · have hfound := List.find?_some hfind
      have howner : held.register = register := of_decide_eq_true hfound
      dsimp only
      split
      · exact ⟨h.once, hsource, fun hr => absurd hr (by simp)⟩
      next hnode =>
        refine ⟨h.once, hsource, fun hr f hf => ?_⟩
        rcases List.mem_append.1 hf with hf | hf
        · exact h.given hr f hf
        · rw [List.mem_singleton.1 hf]
          exact ⟨held, List.mem_of_find?_eq_some hfind, by rw [hreg, howner], (not_not.1 hnode).symm⟩

theorem Assigns.foldl {es : List (Nat × Grant P)} {s : List (Row P) × List (Refusal P)} (h : Assigns es s)
    (es' : List (Nat × Grant P)) : Assigns (es ++ es') (es'.foldl assign s) := by
  induction es' generalizing es s with
  | nil => rwa [List.append_nil]
  | cons e es' ih =>
    have := ih (h.step e)
    rwa [List.append_assoc] at this

theorem registerGate_of_deriveGate {gate : PartitionGate} (hk : gate.kind = .accessctrl)
    (h : (deriveGate gate m grants nodes).2 = []) : RegisterGate grants (deriveGate gate m grants nodes).1 := by
  have hnone : Assigns (P := P) [] ([], []) :=
    ⟨List.nodup_nil, fun _ hr => absurd hr List.not_mem_nil, fun _ _ he => absurd he List.not_mem_nil⟩
  have hall : Assigns grants (grants.foldl assign ([], [])) := hnone.foldl grants
  unfold deriveGate at h ⊢
  rw [if_pos hk] at h ⊢
  exact ⟨hall.once, hall.source, hall.given h⟩

/-! ### The partition -/

/-- Of a partition that is admitted, the regions lie apart in the share where every node needs them, and through a gate every node
holds its own grants and, past node 0, the kernel's ranges, its slice and the window, and no other byte. -/
theorem partition_sound [DecidableEq P] (p : Partition P C) (h : p.refusals = []) :
    Spread p.nodes p.manifest p.placed ∧
    (p.first.chip.partitionGate = none → p.rows = []) ∧
    ∀ gate, p.first.chip.partitionGate = some gate →
      (gate.kind ≠ .accessctrl → RegionGate gate p.manifest p.memGrants p.nodes.length p.rows) ∧
      (gate.kind = .accessctrl → RegisterGate p.memGrants p.rows) := by
  obtain ⟨hplace, hgate⟩ := List.append_eq_nil_iff.1 h
  unfold Partition.rows
  unfold Partition.gate at hgate ⊢
  refine ⟨spread_of_placeRegions hplace, fun hnone => ?_, fun gate hsome => ?_⟩
  · rw [hnone]
  · rw [hsome] at hgate ⊢
    exact ⟨fun hk => regionGate_of_deriveGate hk hgate, fun hk => registerGate_of_deriveGate hk hgate⟩

/-- A chip with one unit, which fronts a device and the memory of the nodes. -/
def oneUnit : GateUnit := ⟨some 8, [(0x4000, 0x1000)], [(0, 0x2000)], [(0x9000, 0x100, .r)]⟩

def oneGate : Chip Nat := ⟨[], fun _ => none, some ⟨.apm, [oneUnit]⟩⟩

/-- Two nodes with slices of `0x800` below their window at `0x1000`; node 1 holds two windows of the device that touch. -/
def twoNodes : Partition Nat Nat :=
  ⟨⟨oneGate, none, [(1, ⟨0x30, true⟩), (2, ⟨0x40, true⟩)], [], by decide⟩,
    [⟨oneGate, none, [(2, ⟨0x40, true⟩)], [⟨7, 0, .mem, 0x4000, 0x100, none⟩, ⟨8, 0, .mem, 0x4100, 0x100, none⟩], by decide⟩],
    ⟨.granule ⟨0x20, 5, rfl⟩, some (0x1000, 0x1000), 0x100, some (0, 0x800)⟩⟩

theorem partition_sound_twoNodes : twoNodes.refusals = [] ∧ twoNodes.placed.length = 2 ∧ twoNodes.rows.length = 4 ∧
    Spread twoNodes.nodes twoNodes.manifest twoNodes.placed := by
  have h : twoNodes.refusals = [] := List.isEmpty_iff.1 (by decide +kernel)
  exact ⟨h, by decide +kernel, by decide +kernel, (partition_sound twoNodes h).1⟩

/-- One node behind a gate of registers, with two windows of the device at register 5. -/
def registerTwice : Partition Nat Nat :=
  ⟨⟨⟨[], fun _ => none, some ⟨.accessctrl, []⟩⟩, none, [],
    [⟨7, 0, .mem, 0x4000, 0x100, some 5⟩, ⟨8, 0, .mem, 0x4100, 0x100, some 5⟩], by decide⟩,
    [], ⟨.granule ⟨0x20, 5, rfl⟩, none, 0x100, none⟩⟩

/-- The window is neither a grant of node 1 nor a range of its kernel nor its slice, and the gate opens it. A gate of
registers has one row for the device, and no row holds the second window's bytes. -/
theorem window_given : (twoNodes.refusals = [] ∧ twoNodes.first.chip.partitionGate = some ⟨.apm, [oneUnit]⟩ ∧
    Holds twoNodes.rows 0 1 .rw 0x1000 ∧ ¬ Granted twoNodes.memGrants oneUnit 1 .rw 0x1000 ∧ ¬ KernelHeld oneUnit .rw 0x1000 ∧
    ¬ SliceHeld twoNodes.manifest oneUnit 1 .rw 0x1000) ∧
    registerTwice.refusals = [] ∧ (0, ⟨8, 0, .mem, 0x4100, 0x100, some 5⟩) ∈ registerTwice.memGrants ∧
    ∀ i a, ¬ Holds registerTwice.rows i 0 a 0x4100 := by
  refine ⟨⟨List.isEmpty_iff.1 (by decide +kernel), rfl, ?_, ?_, ?_, ?_⟩, List.isEmpty_iff.1 (by decide +kernel), ?_, ?_⟩
  · decide +kernel
  · decide +kernel
  · rintro ⟨r, hr, ha, -⟩
    rw [List.mem_singleton.1 hr] at ha
    cases ha
  · rintro ⟨-, -, -, -, ha, -⟩
    cases ha
  · exact List.mem_cons_of_mem _ List.mem_cons_self
  · rintro i a ⟨row, hrow, -, -, -, -, hlt⟩
    have hall : ∀ row ∈ registerTwice.rows, row.base + row.size ≤ 0x4100 := by decide +kernel
    exact absurd hlt (not_lt.2 (hall row hrow))

end KickOS.Compose
