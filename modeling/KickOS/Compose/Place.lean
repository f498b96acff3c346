import KickOS.Compose.Model

/-! The partition regions lie apart in the user share, each at the alignment every node that has it needs. -/

namespace KickOS.Compose

open Lib.Extent (ceilTo le_ceilTo)

variable {P C : Type} {rule : WindowRule} {made : Made P C} {nodes : List (Made P C)} {path : P} {m : Manifest}

/-! ### Powers of two -/

theorem isPowerOfTwo_max {a b : Nat} (ha : a.isPowerOfTwo) (hb : b.isPowerOfTwo) : (max a b).isPowerOfTwo := by
  rcases max_choice a b with h | h
  · rwa [h]
  · rwa [h]

theorem dvd_of_isPowerOfTwo_of_le {a b : Nat} (ha : a.isPowerOfTwo) (hb : b.isPowerOfTwo) (h : a ≤ b) : a ∣ b := by
  obtain ⟨i, rfl⟩ := ha
  obtain ⟨j, rfl⟩ := hb
  exact Nat.pow_dvd_pow 2 ((Nat.pow_le_pow_iff_right Nat.one_lt_two).1 h)

theorem isPowerOfTwo_ceilTo {a b : Nat} (ha : a.isPowerOfTwo) (hb : b.isPowerOfTwo) : (ceilTo a b).isPowerOfTwo := by
  have hpos := Nat.pos_of_isPowerOfTwo hb
  rcases Nat.le_total a b with h | h
  · have hdiv : (a + (b - 1)) / b = 1 := by
      have ha' := Nat.pos_of_isPowerOfTwo ha
      exact Nat.div_eq_of_lt_le (by omega) (by omega)
    rw [ceilTo, hdiv, Nat.one_mul]
    exact hb
  · obtain ⟨c, rfl⟩ := dvd_of_isPowerOfTwo_of_le hb ha h
    have hdiv : (b * c + (b - 1)) / b = c := by
      rw [Nat.mul_add_div hpos, Nat.div_eq_of_lt (Nat.sub_lt hpos Nat.one_pos), Nat.add_zero]
    rw [ceilTo, hdiv, Nat.mul_comm]
    exact ha

/-! ### What a node needs -/

/-- Under the rule of powers of two a size is one. -/
def Fits (rule : WindowRule) (size : Nat) : Prop := ∀ smallest, rule = .pow2 smallest → size.isPowerOfTwo

theorem isPowerOfTwo_foldl_ceilTo (pages : List Pow2) {size : Nat} (h : size.isPowerOfTwo) :
    (pages.foldl (fun size page => ceilTo size page) size).isPowerOfTwo := by
  induction pages generalizing size with
  | nil => exact h
  | cons page pages ih => exact ih (isPowerOfTwo_ceilTo h page.2)

theorem Made.fits_regionSize (made : Made P C) (rule : WindowRule) (size : Nat) : Fits rule (made.regionSize rule size) := by
  rintro smallest rfl
  exact isPowerOfTwo_foldl_ceilTo _ (Nat.isPowerOfTwo_nextPowerOfTwo _)

theorem isPowerOfTwo_foldl_max (pages : List Pow2) {align : Nat} (h : align.isPowerOfTwo) :
    (pages.foldl (fun align page => max align page) align).isPowerOfTwo := by
  induction pages generalizing align with
  | nil => exact h
  | cons page pages ih => exact ih (isPowerOfTwo_max h page.2)

theorem Made.isPowerOfTwo_regionAlign {size : Nat} (made : Made P C) (h : Fits rule size) :
    (made.regionAlign rule size).isPowerOfTwo := by
  refine isPowerOfTwo_foldl_max _ ?_
  cases rule with
  | pow2 smallest => exact h smallest rfl
  | granule smallest => exact smallest.2
  | none => exact Nat.isPowerOfTwo_one

theorem foldl_max_mono (pages : List Pow2) {a b : Nat} (h : a ≤ b) :
    pages.foldl (fun align page => max align page) a ≤ pages.foldl (fun align page => max align page) b := by
  induction pages generalizing a b with
  | nil => exact h
  | cons page pages ih => exact ih (max_le_max_right _ h)

theorem Made.regionAlign_mono {size size' : Nat} (made : Made P C) (rule : WindowRule) (h : size ≤ size') :
    made.regionAlign rule size ≤ made.regionAlign rule size' := by
  refine foldl_max_mono _ ?_
  cases rule with
  | pow2 smallest => exact h
  | granule smallest => exact le_rfl
  | none => exact le_rfl

/-- A size and an alignment that serve the region `size` of a node. -/
structure Serves (rule : WindowRule) (want : Nat) (s : Nat × Nat) (made : Made P C) : Prop where
  size : made.regionSize rule want ≤ s.1
  align : made.regionAlign rule (made.regionSize rule want) ∣ s.2

/-- What has been measured over some nodes: nothing yet, or a size the rule knows. -/
structure Measured (rule : WindowRule) (s : Nat × Nat) : Prop where
  size : s.1 = 0 ∨ Fits rule s.1
  align : s.2.isPowerOfTwo

theorem Fits.max {a b : Nat} (ha : a = 0 ∨ Fits rule a) (hb : Fits rule b) : Fits rule (max a b) := by
  rcases ha with rfl | ha
  · rwa [Nat.zero_max]
  · exact fun smallest hr => isPowerOfTwo_max (ha smallest hr) (hb smallest hr)

variable [DecidableEq P]

section Measure

variable {s : Nat × Nat}

theorem Measured.step (h : Measured rule s) (path : P) (size : Nat) (made : Made P C) :
    Measured rule (measured rule path size s made) ∧ s.1 ≤ (measured rule path size s made).1 ∧
      s.2 ∣ (measured rule path size s made).2 := by
  unfold measured
  split
  · have hfit := Fits.max h.size (made.fits_regionSize rule size)
    have hpow := isPowerOfTwo_max h.align (made.isPowerOfTwo_regionAlign hfit)
    exact ⟨⟨.inr hfit, hpow⟩, le_max_left .., dvd_of_isPowerOfTwo_of_le h.align hpow (le_max_left ..)⟩
  · exact ⟨h, le_rfl, dvd_rfl⟩

theorem Measured.serves (h : Measured rule s) (size : Nat) (hm : made.isPartitionRegion path = true) :
    Serves rule size (measured rule path size s made) made := by
  have hfit := Fits.max h.size (made.fits_regionSize rule size)
  unfold measured
  rw [if_pos hm]
  refine ⟨le_max_right .., dvd_of_isPowerOfTwo_of_le (made.isPowerOfTwo_regionAlign (made.fits_regionSize rule size))
    (isPowerOfTwo_max h.align (made.isPowerOfTwo_regionAlign hfit)) ?_⟩
  exact (made.regionAlign_mono rule (le_max_right ..)).trans (le_max_right ..)

theorem Measured.foldl (h : Measured rule s) (path : P) (size : Nat) (nodes : List (Made P C)) :
    Measured rule (nodes.foldl (measured rule path size) s) ∧ s.1 ≤ (nodes.foldl (measured rule path size) s).1 ∧
      s.2 ∣ (nodes.foldl (measured rule path size) s).2 ∧
      ∀ made ∈ nodes, made.isPartitionRegion path = true → Serves rule size (nodes.foldl (measured rule path size) s) made := by
  induction nodes generalizing s with
  | nil => exact ⟨h, le_rfl, dvd_rfl, fun _ hm => absurd hm List.not_mem_nil⟩
  | cons node nodes ih =>
    obtain ⟨hs, hle, hdvd⟩ := h.step path size node
    obtain ⟨hall, hle', hdvd', hserves⟩ := ih hs
    refine ⟨hall, hle.trans hle', hdvd.trans hdvd', fun made hmem hm => ?_⟩
    rcases List.mem_cons.1 hmem with rfl | hmem
    · have hown := h.serves size hm
      exact ⟨hown.size.trans hle', hown.align.trans hdvd'⟩
    · exact hserves made hmem hm

end Measure

/-! ### Placing -/

/-- The regions placed so far, below the cursor. -/
structure Laid (nodes : List (Made P C)) (m : Manifest) (ds : List (Declared P)) (s : Int × List (Placed P)) : Prop where
  cursor : 0 ≤ s.1
  paths : s.2.map Placed.path = ds.map Declared.path
  within : ∀ p ∈ s.2, 0 ≤ p.offset ∧ p.offset + p.size ≤ s.1
  apart : s.2.Pairwise fun p q : Placed P => p.offset + p.size ≤ q.offset
  serves : ∀ p ∈ s.2, ∃ d ∈ ds, d.path = p.path ∧ ∀ made ∈ nodes, made.isPartitionRegion p.path = true →
    made.regionSize m.rule d.region.size ≤ p.size ∧
      (made.regionAlign m.rule (made.regionSize m.rule d.region.size) : Int) ∣ shareBase m + p.offset

theorem roundUp_spec (x : Int) {a : Int} (ha : 0 < a) : x ≤ -(-x / a) * a ∧ a ∣ -(-x / a) * a := by
  refine ⟨?_, Int.dvd_mul_left ..⟩
  have h := Int.ediv_mul_le (-x) ha.ne'
  rw [Int.neg_mul]
  omega

theorem Laid.step {ds : List (Declared P)} {s : Int × List (Placed P)} (h : Laid nodes m ds s) (d : Declared P) :
    Laid nodes m (ds ++ [d]) (placeOne nodes m s d) := by
  obtain ⟨needs, hn⟩ : ∃ needs, needs = nodes.foldl (measured m.rule d.path d.region.size) (0, 1) := ⟨_, rfl⟩
  have hzero : Measured m.rule (0, 1) := ⟨.inl rfl, Nat.isPowerOfTwo_one⟩
  obtain ⟨hm, -, -, hserves⟩ := hzero.foldl d.path d.region.size nodes
  rw [← hn] at hm hserves
  obtain ⟨top, ht⟩ : ∃ top, top = -(-(shareBase m + s.1) / (needs.2 : Int)) * (needs.2 : Int) := ⟨_, rfl⟩
  obtain ⟨hle, hdvd⟩ := roundUp_spec (shareBase m + s.1) (a := needs.2) (Int.natCast_pos.2 (Nat.pos_of_isPowerOfTwo hm.align))
  rw [← ht] at hle hdvd
  have hone : placeOne nodes m s d =
      (top - shareBase m + needs.1, s.2 ++ [⟨d.path, top - shareBase m, needs.1, needs.2⟩]) := by
    unfold placeOne
    rw [← hn, ht]
  have hcur := h.cursor
  rw [hone]
  refine ⟨?_, ?_, fun p hp => ?_, ?_, fun p hp => ?_⟩
  · dsimp only
    omega
  · rw [List.map_append, List.map_append, h.paths]
    rfl
  · dsimp only
    rcases List.mem_append.1 hp with hp | hp
    · obtain ⟨h0, h1⟩ := h.within p hp
      omega
    · rw [List.mem_singleton.1 hp]
      dsimp only
      omega
  · rw [List.pairwise_append]
    refine ⟨h.apart, List.pairwise_singleton .., fun p hp q hq => ?_⟩
    obtain ⟨h0, h1⟩ := h.within p hp
    rw [List.mem_singleton.1 hq]
    dsimp only
    omega
  · rcases List.mem_append.1 hp with hp | hp
    · obtain ⟨d', hd', hpath, hall⟩ := h.serves p hp
      exact ⟨d', List.mem_append_left _ hd', hpath, hall⟩
    · rw [List.mem_singleton.1 hp]
      refine ⟨d, List.mem_append_right _ (List.mem_singleton.2 rfl), rfl, fun made hmem hr => ?_⟩
      obtain ⟨hsize, halign⟩ := hserves made hmem hr
      refine ⟨hsize, (Int.natCast_dvd_natCast.2 halign).trans ?_⟩
      rw [show shareBase m + (top - shareBase m) = top by omega]
      exact hdvd

theorem Laid.foldl {ds : List (Declared P)} {s : Int × List (Placed P)} (h : Laid nodes m ds s) (ds' : List (Declared P)) :
    Laid nodes m (ds ++ ds') (ds'.foldl (placeOne nodes m) s) := by
  induction ds' generalizing ds s with
  | nil => rwa [List.append_nil]
  | cons d ds' ih =>
    have := ih (h.step d)
    rwa [List.append_assoc] at this

/-! ### Declarations -/

/-- The regions that were declared, of the declarations so far. -/
structure Declares (es : List (Nat × P × Region)) (s : List (Declared P) × List (Refusal P)) : Prop where
  nodup : (s.1.map Declared.path).Nodup
  first : ∀ d ∈ s.1, ∃ e ∈ es, e.2.1 = d.path
  all : s.2 = [] → ∀ e ∈ es, ∃ d ∈ s.1, d.path = e.2.1 ∧ d.region.size = e.2.2.size

theorem Declares.step {es : List (Nat × P × Region)} {s : List (Declared P) × List (Refusal P)} (h : Declares es s)
    (e : Nat × P × Region) : Declares (es ++ [e]) (declare s e) := by
  have hmem : ∀ {d : Declared P}, d ∈ s.1 → ∃ f ∈ es ++ [e], f.2.1 = d.path := fun hd => by
    obtain ⟨f, hf, hpath⟩ := h.first _ hd
    exact ⟨f, List.mem_append_left _ hf, hpath⟩
  have hlast : e ∈ es ++ [e] := List.mem_append_right _ (List.mem_singleton.2 rfl)
  unfold declare
  rcases hn : Declared.named e.2.1 s.1 with _ | first
  · have hnew : ∀ d ∈ s.1, d.path ≠ e.2.1 := fun d hd heq => by
      have := List.find?_eq_none.1 hn d hd
      exact this (decide_eq_true heq)
    refine ⟨?_, fun d hd => ?_, fun hr f hf => ?_⟩
    · rw [List.map_append, List.nodup_append']
      refine ⟨h.nodup, List.nodup_singleton _, fun q hq hq' => ?_⟩
      obtain ⟨d, hd, rfl⟩ := List.mem_map.1 hq
      exact hnew d hd (List.mem_singleton.1 hq')
    · rcases List.mem_append.1 hd with hd | hd
      · exact hmem hd
      · exact ⟨e, hlast, by rw [List.mem_singleton.1 hd]⟩
    · rcases List.mem_append.1 hf with hf | hf
      · obtain ⟨d, hd, hall⟩ := h.all hr f hf
        exact ⟨d, List.mem_append_left _ hd, hall⟩
      · rw [List.mem_singleton.1 hf]
        exact ⟨_, List.mem_append_right _ (List.mem_singleton.2 rfl), rfl, rfl⟩
  · have hfirst : first ∈ s.1 := List.mem_of_find?_eq_some hn
    have hfound := List.find?_some hn
    have hpath : first.path = e.2.1 := of_decide_eq_true hfound
    dsimp only
    split
    · refine ⟨h.nodup, fun d hd => hmem hd, fun hr => absurd hr (by simp)⟩
    next hsize =>
      refine ⟨h.nodup, fun d hd => hmem hd, fun hr f hf => ?_⟩
      rcases List.mem_append.1 hf with hf | hf
      · exact h.all hr f hf
      · rw [List.mem_singleton.1 hf]
        exact ⟨first, hfirst, hpath, (not_not.1 hsize).symm⟩

theorem Declares.foldl {es : List (Nat × P × Region)} {s : List (Declared P) × List (Refusal P)} (h : Declares es s)
    (es' : List (Nat × P × Region)) : Declares (es ++ es') (es'.foldl declare s) := by
  induction es' generalizing es s with
  | nil => rwa [List.append_nil]
  | cons e es' ih =>
    have := ih (h.step e)
    rwa [List.append_assoc] at this

theorem isPartitionRegion_iff : made.isPartitionRegion path = true ↔ ∃ r, (path, r) ∈ made.shared ∧ r.shares = true := by
  unfold Made.isPartitionRegion
  rw [List.any_eq_true]
  constructor
  · rintro ⟨e, he, ht⟩
    rw [Bool.and_eq_true, decide_eq_true_iff] at ht
    exact ⟨e.2, ht.1 ▸ he, ht.2⟩
  · rintro ⟨r, hr, hs⟩
    exact ⟨_, hr, by rw [hs, Bool.and_true, decide_eq_true_iff]⟩

theorem mem_declarations {e : Nat × P × Region} :
    e ∈ declarations nodes ↔ ∃ made, (made, e.1) ∈ nodes.zipIdx ∧ e.2 ∈ made.shared ∧ made.isPartitionRegion e.2.1 = true := by
  unfold declarations Made.partitionRegions
  simp only [List.mem_flatMap, List.mem_map, List.mem_filter]
  constructor
  · rintro ⟨f, hf, r, hr, rfl⟩
    exact ⟨f.1, hf, hr⟩
  · rintro ⟨made, hmade, hr⟩
    exact ⟨(made, e.1), hmade, e.2, hr, rfl⟩

/-! ### The regions of a partition that is admitted -/

/-- A region of a node, and where it was placed. -/
structure Region.At (rule : WindowRule) (base : Int) (made : Made P C) (r : Region) (p : Placed P) : Prop where
  size : made.regionSize rule r.size ≤ p.size
  align : (made.regionAlign rule (made.regionSize rule r.size) : Int) ∣ base + p.offset

/-- Where the regions lie once nothing is refused. -/
structure Spread (nodes : List (Made P C)) (m : Manifest) (placed : List (Placed P)) : Prop where
  /-- One place for a path. -/
  nodup : (placed.map Placed.path).Nodup
  apart : placed.Pairwise fun p q : Placed P => p.offset + p.size ≤ q.offset
  share : ∀ p ∈ placed, 0 ≤ p.offset ∧ p.offset + p.size ≤ m.ampShare
  regions : ∀ made ∈ nodes, ∀ e ∈ made.shared, e.2.shares = true → ∃ p ∈ placed, p.path = e.1 ∧ e.2.At m.rule (shareBase m) made p

theorem spread_of_placeRegions (h : (placeRegions nodes m).2 = []) : Spread nodes m (placeRegions nodes m).1 := by
  obtain ⟨s, hs⟩ : ∃ s, s = (declarations nodes).foldl declare ([], []) := ⟨_, rfl⟩
  have hd : Declares (declarations nodes) s := by
    have hnone : Declares (P := P) [] ([], []) :=
      ⟨List.nodup_nil, fun _ hd => absurd hd List.not_mem_nil, fun _ _ he => absurd he List.not_mem_nil⟩
    rw [hs]
    exact hnone.foldl _
  obtain ⟨t, ht⟩ : ∃ t, t = s.1.foldl (placeOne nodes m) (0, []) := ⟨_, rfl⟩
  have hl : Laid nodes m s.1 t := by
    have hnone : Laid nodes m [] (0, []) :=
      ⟨le_rfl, rfl, fun _ hp => absurd hp List.not_mem_nil, .nil, fun _ hp => absurd hp List.not_mem_nil⟩
    rw [ht]
    exact hnone.foldl _
  have hplaced : (placeRegions nodes m).1 = t.2 := by
    unfold placeRegions
    rw [ht, hs]
  have href : s.2 ++ apart nodes s.1 ++ t.2.flatMap (past nodes m) = [] := by
    unfold placeRegions at h
    rw [← hs] at h
    rw [ht]
    exact h
  obtain ⟨⟨hsize, -⟩, hpast⟩ : (s.2 = [] ∧ apart nodes s.1 = []) ∧ t.2.flatMap (past nodes m) = [] := by
    rw [List.append_eq_nil_iff, List.append_eq_nil_iff] at href
    exact href
  rw [hplaced]
  -- a path that is placed is one of some node, which would refuse it past the share
  have hnode : ∀ p ∈ t.2, ∃ e ∈ nodes.zipIdx, e.1.isPartitionRegion p.path = true := fun p hp => by
    have hmem : p.path ∈ s.1.map Declared.path := hl.paths ▸ List.mem_map_of_mem hp
    obtain ⟨d, hdm, hpath⟩ := List.mem_map.1 hmem
    obtain ⟨e, he, heq⟩ := hd.first d hdm
    obtain ⟨made, hmade, -, hr⟩ := mem_declarations.1 he
    exact ⟨_, hmade, by rw [← hpath, ← heq]; exact hr⟩
  refine ⟨hl.paths ▸ hd.nodup, hl.apart, fun p hp => ⟨(hl.within p hp).1, ?_⟩, fun made hmade e he hsh => ?_⟩
  · obtain ⟨e, hmem, hr⟩ := hnode p hp
    by_contra hlt
    have hnil : past nodes m p = [] := List.flatMap_eq_nil_iff.1 hpast p hp
    unfold past at hnil
    rw [if_pos (not_le.1 hlt), List.filterMap_eq_nil_iff] at hnil
    have := hnil e hmem
    rw [if_pos hr] at this
    cases this
  · have hr : made.isPartitionRegion e.1 = true := isPartitionRegion_iff.2 ⟨e.2, he, hsh⟩
    obtain ⟨k, hk⟩ : ∃ k, (made, k) ∈ nodes.zipIdx := by
      obtain ⟨k, hk, rfl⟩ := List.mem_iff_getElem.1 hmade
      exact ⟨k, List.mem_zipIdx_iff_getElem?.2 (List.getElem?_eq_getElem hk)⟩
    obtain ⟨d, hdm, hpath, hdsize⟩ := hd.all hsize (k, e) (mem_declarations.2 ⟨made, hk, he, hr⟩)
    have hmem : e.1 ∈ t.2.map Placed.path := hl.paths ▸ hpath ▸ List.mem_map_of_mem hdm
    obtain ⟨p, hp, hpp⟩ := List.mem_map.1 hmem
    obtain ⟨d', hdm', hpath', hall⟩ := hl.serves p hp
    -- one declaration stands for a path
    obtain rfl : d' = d := List.inj_on_of_nodup_map hd.nodup hdm' hdm (by rw [hpath', hpp, hpath])
    obtain ⟨h1, h2⟩ := hall made hmade (hpp ▸ hr)
    rw [hdsize] at h1 h2
    exact ⟨p, hp, hpp, h1, h2⟩

end KickOS.Compose
