import KickOS.Walk.Model

/-! The frames a walk takes and gives back. -/

namespace KickOS
namespace Walk

namespace Pool

variable {p p' q : Pool} {i j f : Nat} {l m : List Nat}

theorem taken_eq_false : p.taken i = false ↔ p.reserved ≤ i ∧ i < p.frames ∧ p.bits i = false := by
  simp only [taken, Bool.or_eq_false_iff, decide_eq_false_iff_not, not_lt, not_le, and_assoc]

theorem mem_search (hr : p.reserved ≤ i) (hf : i < p.frames) :
    i ∈ List.range' p.hint (p.frames - p.hint) ++ List.range' p.reserved (p.hint - p.reserved) := by
  rw [List.mem_append, List.mem_range'_1, List.mem_range'_1]
  omega

theorem alloc_eq_none : p.alloc = none ↔ p.free = 0 := by
  unfold alloc free
  rw [Option.map_eq_none_iff, List.find?_eq_none, Lib.count_eq_zero]
  constructor
  · intro h i hi
    by_contra hne
    rw [Bool.not_eq_false, Bool.not_eq_true'] at hne
    obtain ⟨hr, hf, -⟩ := taken_eq_false.1 hne
    exact h i (mem_search hr hf) (by rw [hne]; rfl)
  · intro h i hi hne
    rw [Bool.not_eq_true'] at hne
    obtain ⟨-, hf, -⟩ := taken_eq_false.1 hne
    have := h i hf
    rw [hne] at this
    cases this

/-- The second pool is the first with the frames of a list handed out. -/
structure Takes (p p' : Pool) (l : List Nat) : Prop where
  frames : p'.frames = p.frames
  reserved : p'.reserved = p.reserved
  nodup : l.Nodup
  fresh : ∀ i ∈ l, p.taken i = false
  taken : ∀ i, p'.taken i = (p.taken i || decide (i ∈ l))
  free : p'.free + l.length = p.free

theorem Takes.refl (p : Pool) : Takes p p [] :=
  ⟨rfl, rfl, List.nodup_nil, fun _ hi => absurd hi List.not_mem_nil, fun i => by simp, rfl⟩

theorem Takes.trans (h : Takes p p' l) (h' : Takes p' q m) : Takes p q (l ++ m) := by
  have hfresh : ∀ i ∈ m, p.taken i = false ∧ i ∉ l := by
    intro i hi
    have hf := h'.fresh i hi
    rw [h.taken, Bool.or_eq_false_iff, decide_eq_false_iff_not] at hf
    exact hf
  refine ⟨h'.frames.trans h.frames, h'.reserved.trans h.reserved, ?_, fun i hi => ?_, fun i => ?_, ?_⟩
  · exact List.nodup_append'.2 ⟨h.nodup, h'.nodup, fun i hl hm => (hfresh i hm).2 hl⟩
  · rcases List.mem_append.1 hi with hi | hi
    · exact h.fresh i hi
    · exact (hfresh i hi).1
  · rw [h'.taken, h.taken, Bool.or_assoc]
    simp only [List.mem_append, Bool.decide_or]
  · rw [List.length_append, ← h.free, ← h'.free]
    omega

theorem takes_of_alloc (h : p.alloc = some (f, p')) : Takes p p' [f] := by
  obtain ⟨i, hi, he⟩ := Option.map_eq_some_iff.1 h
  obtain ⟨rfl, rfl⟩ := Prod.mk.inj he
  have hfree : p.taken i = false := by simpa using List.find?_some hi
  obtain ⟨hr, hf, hb⟩ := taken_eq_false.1 hfree
  have htaken : ∀ j, Pool.taken { p with bits := Function.update p.bits i true, hint := i + 1 } j =
      (p.taken j || decide (j ∈ [i])) := by
    intro j
    unfold Pool.taken
    rcases eq_or_ne j i with rfl | hj
    · simp
    · simp [hj]
  refine ⟨rfl, rfl, List.nodup_singleton i, fun j hj => ?_, htaken, ?_⟩
  · rw [List.mem_singleton.1 hj]
    exact hfree
  · have hcount := Lib.count_update p.taken true (fun x => !x) hf
    unfold Pool.free
    simp only [htaken, List.mem_singleton]
    simp only [hfree, Bool.not_false, Bool.not_true, Bool.toNat_true, Bool.toNat_false, Nat.add_zero] at hcount
    rw [List.length_singleton, ← hcount]
    refine congrArg (· + 1) (Lib.count_congr fun j _ => ?_)
    rcases eq_or_ne j i with rfl | hj
    · simp
    · simp [hj]

theorem release_taken (p : Pool) (i j : Nat) :
    (p.release i).taken j = if j = i ∧ p.reserved ≤ i ∧ i < p.frames then false else p.taken j := by
  unfold release
  split_ifs with hc hj hj
  · obtain ⟨rfl, h1, h2⟩ := hj
    exact taken_eq_false.2 ⟨h1, h2, (hc.resolve_left (not_lt.2 h1)).resolve_left (not_le.2 h2)⟩
  · rfl
  · obtain ⟨rfl, h1, h2⟩ := hj
    exact taken_eq_false.2 ⟨h1, h2, Function.update_self ..⟩
  · have hne : j ≠ i := by
      rintro rfl
      exact hj ⟨rfl, by omega, by omega⟩
    unfold taken
    dsimp only
    rw [Function.update_of_ne hne]

theorem release_bounds (p : Pool) (i : Nat) : (p.release i).reserved = p.reserved ∧ (p.release i).frames = p.frames := by
  unfold release
  split_ifs
  · exact ⟨rfl, rfl⟩
  · exact ⟨rfl, rfl⟩

theorem releases_taken (l : List Nat) (p : Pool) (j : Nat) :
    (l.foldl release p).taken j = if j ∈ l ∧ p.reserved ≤ j ∧ j < p.frames then false else p.taken j := by
  induction l generalizing p with
  | nil => simp
  | cons i l ih =>
    obtain ⟨h1, h2⟩ := release_bounds p i
    rw [List.foldl_cons, ih, release_taken, h1, h2]
    by_cases hj : p.reserved ≤ j ∧ j < p.frames
    · by_cases hl : j ∈ l
      · simp [hl, hj]
      · rcases eq_or_ne j i with rfl | hne
        · simp [hj]
        · simp [hl, hne]
    · have hx : ¬ (j = i ∧ p.reserved ≤ i ∧ i < p.frames) := by
        rintro ⟨rfl, hb⟩
        exact hj hb
      simp [hj, hx]

theorem Takes.undo (h : Takes p p' l) (hm : ∀ i, i ∈ m ↔ i ∈ l) (j : Nat) : (m.foldl release p').taken j = p.taken j := by
  rw [releases_taken, h.reserved, h.frames, h.taken]
  by_cases hj : j ∈ l
  · obtain ⟨hr, hf, -⟩ := taken_eq_false.1 (h.fresh j hj)
    rw [if_pos ⟨(hm j).2 hj, hr, hf⟩, h.fresh j hj]
  · rw [if_neg fun hc => hj ((hm j).1 hc.1), decide_eq_false hj, Bool.or_false]

end Pool

end Walk
end KickOS
