import KickOS.Driver.Model

/-! What the validator guarantees: the first two legs bound every index that the others, the layout and the bring-up use. -/

namespace KickOS.Driver

section Loops

variable {check : Nat → Option Bool} {l : List Nat} {α : Type} {n : Nat}

theorem index_of_lt (a : Fin n → α) {i : Nat} (h : i < n) : index a i = some (a ⟨i, h⟩) := by
  rw [index, dif_pos h]

theorem lt_of_index {a : Fin n → α} {i : Nat} {v : α} (h : index a i = some v) : i < n := by
  by_contra hn
  rw [index, dif_neg hn] at h
  cases h

theorem store_of_lt (a : Fin n → α) {i : Nat} (h : i < n) (v : α) : store a i v = some (Function.update a ⟨i, h⟩ v) := by
  rw [store, dif_pos h]

theorem every_eq_true : every check l = some true ↔ ∀ i ∈ l, check i = some true := by
  induction l with
  | nil => simp [every]
  | cons i l ih =>
    rw [every, List.forall_mem_cons, ← ih]
    obtain hn | ⟨b, hb⟩ := Option.eq_none_or_eq_some (check i)
    · simp [hn]
    · cases b <;> simp [hb]

theorem every_isSome (h : ∀ i ∈ l, ∃ b, check i = some b) : ∃ b, every check l = some b := by
  induction l with
  | nil => exact ⟨true, rfl⟩
  | cons i l ih =>
    obtain ⟨b, hb⟩ := h i (List.mem_cons_self ..)
    have hrest := ih fun k hk => h k (List.mem_cons_of_mem _ hk)
    rw [every, hb]
    cases b with
    | true => simpa using hrest
    | false => exact ⟨false, rfl⟩

theorem anyOf_isSome (h : ∀ i ∈ l, ∃ b, check i = some b) : ∃ b, anyOf check l = some b := by
  induction l with
  | nil => exact ⟨false, rfl⟩
  | cons i l ih =>
    obtain ⟨b, hb⟩ := h i (List.mem_cons_self ..)
    have hrest := ih fun k hk => h k (List.mem_cons_of_mem _ hk)
    rw [anyOf, hb]
    cases b with
    | true => exact ⟨true, rfl⟩
    | false => simpa using hrest

theorem anyOf_eq_true (h : ∀ i ∈ l, ∃ b, check i = some b) : anyOf check l = some true ↔ ∃ i ∈ l, check i = some true := by
  induction l with
  | nil => simp [anyOf]
  | cons i l ih =>
    obtain ⟨b, hb⟩ := h i (List.mem_cons_self ..)
    have hrest := ih fun k hk => h k (List.mem_cons_of_mem _ hk)
    rw [anyOf, hb]
    cases b with
    | true => simp [hb]
    | false => simpa [hb] using hrest

theorem countOf_isSome (h : ∀ i ∈ l, ∃ b, check i = some b) : ∃ n, countOf check l = some n := by
  induction l with
  | nil => exact ⟨0, rfl⟩
  | cons i l ih =>
    obtain ⟨b, hb⟩ := h i (List.mem_cons_self ..)
    obtain ⟨n, hn⟩ := ih fun k hk => h k (List.mem_cons_of_mem _ hk)
    exact ⟨n + b.toNat, by rw [countOf, hb, hn]; rfl⟩

theorem firstOf_mem (h : ∀ i ∈ l, ∃ b, check i = some b) (past : Nat) {n : Nat} (hc : countOf check l = some n) :
    ∃ w, firstOf check past l = some w ∧ (n ≠ 0 → w ∈ l) := by
  induction l generalizing n with
  | nil =>
    cases hc
    exact ⟨past, rfl, fun hn => absurd rfl hn⟩
  | cons i l ih =>
    obtain ⟨b, hb⟩ := h i (List.mem_cons_self ..)
    have hl : ∀ k ∈ l, ∃ b, check k = some b := fun k hk => h k (List.mem_cons_of_mem _ hk)
    obtain ⟨m, hm⟩ := countOf_isSome hl
    obtain ⟨w, hw, hmem⟩ := ih hl hm
    rw [firstOf, hb]
    cases b with
    | true => exact ⟨i, rfl, fun _ => List.mem_cons_self ..⟩
    | false =>
      refine ⟨w, by simpa using hw, fun hn => List.mem_cons_of_mem _ (hmem ?_)⟩
      rw [countOf, hb, hm] at hc
      cases hc
      simpa using hn

end Loops

/-- The bounds of the first two legs. -/
structure Bounded (d : Descriptor) : Prop where
  threads : d.threadCount ≤ threadsMax
  lines : d.lineCount ≤ linesMax
  caps : ∀ i t, i < d.threadCount → index d.threads i = some t → t.capCount ≤ capsMax
  resource : ∀ i t j c, i < d.threadCount → index d.threads i = some t → j < t.capCount → index t.caps j = some c →
    c.resource < resLine0 + d.lineCount ∧ (c.resource ≠ resNotify → c.badge = 0)

namespace Bounded

variable {d : Descriptor}

theorem thread (h : Bounded d) {i : Nat} (hi : i < d.threadCount) : ∃ t, index d.threads i = some t := by
  have := h.threads
  exact ⟨_, index_of_lt d.threads (show i < threadsMax by omega)⟩

theorem cap (h : Bounded d) {i j : Nat} {t : Thread} (hi : i < d.threadCount) (ht : index d.threads i = some t)
    (hj : j < t.capCount) : ∃ c, index t.caps j = some c := by
  have := h.caps i t hi ht
  exact ⟨_, index_of_lt t.caps (show j < capsMax by omega)⟩

theorem holds (h : Bounded d) {i : Nat} {t : Thread} (hi : i < d.threadCount) (ht : index d.threads i = some t) (resource : Nat)
    (rights : Rights) : ∃ b, holds t resource rights = some b := by
  refine anyOf_isSome ?_
  intro j hj
  obtain ⟨c, hc⟩ := h.cap hi ht (List.mem_range.mp hj)
  exact ⟨_, by rw [holdsAt, hc]; rfl⟩

theorem threadHolds (h : Bounded d) (resource : Nat) (rights : Rights) :
    ∀ i ∈ List.range d.threadCount, ∃ b, d.threadHolds resource rights i = some b := by
  intro i hi
  obtain ⟨t, ht⟩ := h.thread (List.mem_range.mp hi)
  obtain ⟨b, hb⟩ := h.holds (List.mem_range.mp hi) ht resource rights
  exact ⟨b, by rw [Descriptor.threadHolds, ht]; exact hb⟩

theorem holderCount (h : Bounded d) (resource : Nat) (rights : Rights) : ∃ n, d.holderCount resource rights = some n :=
  countOf_isSome (h.threadHolds resource rights)

theorem holder (h : Bounded d) (resource : Nat) (rights : Rights) {n : Nat} (hn : d.holderCount resource rights = some n) :
    ∃ w, d.holder resource rights = some w ∧ (n ≠ 0 → w < d.threadCount) := by
  obtain ⟨w, hw, hmem⟩ := firstOf_mem (h.threadHolds resource rights) d.threadCount hn
  exact ⟨w, hw, fun h0 => List.mem_range.mp (hmem h0)⟩

theorem everyThread (h : Bounded d) (check : Thread → Bool) {l : List Nat} (hl : ∀ i ∈ l, i < d.threadCount) :
    ∃ b, every (fun i => do return check (← index d.threads i)) l = some b := by
  refine every_isSome ?_
  intro i hi
  obtain ⟨t, ht⟩ := h.thread (hl i hi)
  exact ⟨check t, by rw [ht]; rfl⟩

theorem countThread (h : Bounded d) (check : Thread → Bool) :
    ∃ n, countOf (fun i => do return check (← index d.threads i)) (List.range d.threadCount) = some n := by
  refine countOf_isSome ?_
  intro i hi
  obtain ⟨t, ht⟩ := h.thread (List.mem_range.mp hi)
  exact ⟨check t, by rw [ht]; rfl⟩

theorem everyCap (h : Bounded d) (check : Thread → Cap → Option Bool)
    (hc : ∀ i t j c, i < d.threadCount → index d.threads i = some t → j < t.capCount → index t.caps j = some c →
      ∃ b, check t c = some b) :
    ∃ b, d.everyCap check = some b := by
  refine every_isSome ?_
  intro i hi
  obtain ⟨t, ht⟩ := h.thread (List.mem_range.mp hi)
  rw [ht]
  refine every_isSome ?_
  intro j hj
  obtain ⟨c, hcap⟩ := h.cap (List.mem_range.mp hi) ht (List.mem_range.mp hj)
  obtain ⟨b, hb⟩ := hc i t j c (List.mem_range.mp hi) ht (List.mem_range.mp hj) hcap
  exact ⟨b, by rw [hcap]; exact hb⟩

theorem validL3 (h : Bounded d) : ∃ b, d.validL3 = some b := by
  obtain ⟨n, hn⟩ := h.countThread Thread.windowGrant
  obtain ⟨b, hb⟩ := h.everyThread (fun t => !t.windowGrant) (l := (List.range d.threadCount).drop 1)
    fun i hi => List.mem_range.mp (List.mem_of_mem_drop hi)
  obtain ⟨b', hb'⟩ := h.everyThread (fun t => !(t.arg = .window && !t.windowGrant)) fun i hi => List.mem_range.mp hi
  unfold Descriptor.validL3 Descriptor.windowHolderCount
  rw [hn, hb, hb']
  by_cases hmany : 1 < n
  · exact ⟨false, by simp [hmany]⟩
  · cases b with
    | true => exact ⟨b', by simp [hmany]⟩
    | false => exact ⟨false, by simp⟩

theorem validL4 (h : Bounded d) : ∃ b, d.validL4 = some b := by
  obtain ⟨n, hn⟩ := h.countThread fun t => t.arg = .block
  unfold Descriptor.validL4
  rw [hn]
  exact ⟨_, rfl⟩

theorem validL5 (h : Bounded d) : ∃ b, d.validL5 = some b := by
  refine h.everyCap _ ?_
  intro i t j c hi ht hj hc
  obtain ⟨hres, -⟩ := h.resource i t j c hi ht hj hc
  have hlines := h.lines
  split_ifs with h1 h2 h3
  · exact ⟨_, rfl⟩
  · exact ⟨_, rfl⟩
  · exact ⟨_, rfl⟩
  · rw [index_of_lt d.lines (show c.resource - resLine0 < linesMax by unfold resLine0 linesMax at *; omega)]
    exact ⟨_, rfl⟩

theorem validL6 (h : Bounded d) : ∃ b, d.validL6 = some b := by
  obtain ⟨n, hn⟩ := h.holderCount resEp capWait
  exact ⟨_, by rw [Descriptor.validL6, Descriptor.epHolderCount, hn]; rfl⟩

theorem validL8 (h : Bounded d) : ∃ b, d.validL8 = some b := by
  obtain ⟨n, hn⟩ := h.holderCount resEp capWait
  obtain ⟨w, hw, -⟩ := h.holder resEp capWait hn
  unfold Descriptor.validL8 Descriptor.epHolder
  rw [hw]
  split_ifs <;> exact ⟨_, rfl⟩

theorem validL12 (h : Bounded d) : ∃ b, d.validL12 = some b := by
  refine every_isSome ?_
  intro l _
  obtain ⟨n, hn⟩ := h.holderCount (resLine0 + l) capWait
  exact ⟨_, by rw [Descriptor.lineWaiterCount, hn]; rfl⟩

theorem badgesOf (h : Bounded d) {i : Nat} {t : Thread} (hi : i < d.threadCount) (ht : index d.threads i = some t) {l : List Nat}
    (hl : ∀ j ∈ l, j < t.capCount) (seen : BitVec 32) : ∃ r, d.badgesOf t l seen = some r := by
  induction l generalizing seen with
  | nil => exact ⟨_, rfl⟩
  | cons j l ih =>
    obtain ⟨c, hc⟩ := h.cap hi ht (hl j (List.mem_cons_self ..))
    have hrest := ih fun k hk => hl k (List.mem_cons_of_mem _ hk)
    rw [Descriptor.badgesOf, hc]
    simp only [Option.bind_eq_bind, Option.bind_some]
    split_ifs
    · exact hrest seen
    · exact ⟨_, rfl⟩
    · exact ⟨_, rfl⟩
    · exact hrest _

theorem badges (h : Bounded d) {l : List Nat} (hl : ∀ i ∈ l, i < d.threadCount) (seen : BitVec 32) :
    ∃ b, d.badges l seen = some b := by
  induction l generalizing seen with
  | nil => exact ⟨_, rfl⟩
  | cons i l ih =>
    have hi := hl i (List.mem_cons_self ..)
    obtain ⟨t, ht⟩ := h.thread hi
    obtain ⟨r, hr⟩ := h.badgesOf hi ht (fun j hj => List.mem_range.mp hj) seen
    rw [Descriptor.badges, ht]
    simp only [Option.bind_eq_bind, Option.bind_some, hr]
    cases r with
    | none => exact ⟨_, rfl⟩
    | some seen' => exact ih (fun k hk => hl k (List.mem_cons_of_mem _ hk)) seen'

theorem validL13 (h : Bounded d) : ∃ b, d.validL13 = some b := by
  obtain ⟨n, hn⟩ := h.holderCount resNotify capWait
  obtain ⟨w, hw, hlt⟩ := h.holder resNotify capWait hn
  unfold Descriptor.validL13 Descriptor.notifyHolderCount Descriptor.notifyWaiter
  simp only [hn, hw, Option.bind_eq_bind, Option.bind_some]
  split_ifs with h1 h2
  · exact ⟨_, rfl⟩
  · exact ⟨_, rfl⟩
  · -- the waiter is looked at only where there is a line, and then there is one waiter
    obtain ⟨b, hb⟩ : ∃ b, every (fun l => (index d.threads w).bind fun t => Driver.holds t (resLine0 + l) capWait)
        (List.range d.lineCount) = some b := by
      refine every_isSome ?_
      intro l hl
      have hl := List.mem_range.mp hl
      obtain ⟨t, ht⟩ := h.thread (hlt (by omega))
      obtain ⟨b, hb⟩ := h.holds (hlt (by omega)) ht (resLine0 + l) capWait
      exact ⟨b, by rw [ht]; exact hb⟩
    rw [hb]
    cases b with
    | true => exact h.badges (fun i hi => List.mem_range.mp hi) 0
    | false => exact ⟨_, rfl⟩

theorem validL14 (h : Bounded d) : ∃ b, d.validL14 = some b := by
  unfold Descriptor.validL14
  split_ifs with h0
  · exact ⟨_, rfl⟩
  · have hi : 0 < d.threadCount := Nat.pos_of_ne_zero h0
    obtain ⟨t, ht⟩ := h.thread hi
    obtain ⟨b, hb⟩ : ∃ b, every (fun j => every (fun k => (index t.caps j).bind fun c => (index t.caps k).bind fun c' =>
        some (decide (tokenOf c ≠ tokenOf c'))) (List.range j)) (List.range t.capCount) = some b := by
      refine every_isSome ?_
      intro j hj
      refine every_isSome ?_
      intro k hk
      have hj := List.mem_range.mp hj
      have hk := List.mem_range.mp hk
      obtain ⟨c, hc⟩ := h.cap hi ht hj
      obtain ⟨c', hc'⟩ := h.cap hi ht (hk.trans hj)
      exact ⟨_, by rw [hc, hc']; rfl⟩
    obtain ⟨b', hb'⟩ := h.everyCap (fun _ c => return !(tokenOf c = tokDoorbell && c.badge ≠ doorbellBadge d.lineCount))
      fun _ _ _ _ _ _ _ _ => ⟨_, rfl⟩
    simp only [ht, Option.bind_eq_bind, Option.bind_some, Option.pure_def, hb]
    cases b with
    | true => exact ⟨b', hb'⟩
    | false => exact ⟨_, rfl⟩

end Bounded

section Legs

variable {d : Descriptor} {first : Option Bool} {second : Unit → Option Bool}

theorem leg_eq_true : Descriptor.leg first second = some true ↔ first = some true ∧ second () = some true := by
  unfold Descriptor.leg
  obtain hn | ⟨b, hb⟩ := Option.eq_none_or_eq_some first
  · simp [hn]
  · cases b <;> simp [hb]

theorem leg_isSome (h : ∃ b, first = some b) (hs : first = some true → ∃ b, second () = some b) :
    ∃ b, Descriptor.leg first second = some b := by
  unfold Descriptor.leg
  obtain ⟨b, rfl⟩ := h
  cases b with
  | true => simpa using hs rfl
  | false => exact ⟨false, rfl⟩

theorem validL2_isSome (h1 : d.validL1 = true) : ∃ b, d.validL2 = some b := by
  simp only [Descriptor.validL1, Bool.and_eq_true, decide_eq_true_eq] at h1
  refine every_isSome ?_
  intro i hi
  have hi := List.mem_range.mp hi
  rw [Descriptor.validL2At, index_of_lt d.threads (by omega)]
  simp only [Option.bind_eq_bind, Option.bind_some]
  split_ifs with h2 h3
  · exact ⟨_, rfl⟩
  · exact ⟨_, rfl⟩
  · refine every_isSome ?_
    intro j hj
    have hj := List.mem_range.mp hj
    rw [index_of_lt _ (show j < capsMax by omega)]
    exact ⟨_, rfl⟩

theorem bounded_of_legs (h1 : d.validL1 = true) (h2 : d.validL2 = some true) : Bounded d := by
  simp only [Descriptor.validL1, Bool.and_eq_true, decide_eq_true_eq] at h1
  have hthread : ∀ i t, i < d.threadCount → index d.threads i = some t → t.capCount ≤ capsMax ∧
      ∀ j c, j < t.capCount → index t.caps j = some c → c.resource < resLine0 + d.lineCount ∧
        (c.resource ≠ resNotify → c.badge = 0) := by
    intro i t hi ht
    have hat := every_eq_true.mp h2 i (List.mem_range.mpr hi)
    rw [Descriptor.validL2At, ht] at hat
    simp only [Option.bind_eq_bind, Option.bind_some] at hat
    split_ifs at hat with hcaps harg
    · cases hat
    · cases hat
    · refine ⟨not_lt.mp hcaps, ?_⟩
      intro j c hj hc
      have hcap := every_eq_true.mp hat j (List.mem_range.mpr hj)
      rw [hc] at hcap
      simp only [Option.bind_some, Option.pure_def, Option.some.injEq, Bool.and_eq_true, Bool.not_eq_true',
        decide_eq_false_iff_not, Bool.and_eq_false_iff, not_not] at hcap
      refine ⟨not_le.mp hcap.1.1, fun hne => ?_⟩
      obtain hres | hbadge := hcap.2
      · exact absurd hres hne
      · exact hbadge
  exact ⟨h1.1, h1.2, fun i t hi ht => (hthread i t hi ht).1, fun i t j c hi ht hj hc => (hthread i t hi ht).2 j c hj hc⟩

theorem valid_isSome (d : Descriptor) : ∃ b, d.valid = some b := by
  refine leg_isSome ⟨_, rfl⟩ fun h1 => ?_
  have h1 := Option.some.inj h1
  refine leg_isSome (validL2_isSome h1) fun h2 => ?_
  have h := bounded_of_legs h1 h2
  refine leg_isSome h.validL3 fun _ => leg_isSome h.validL4 fun _ => leg_isSome h.validL5 fun _ =>
    leg_isSome h.validL6 fun _ => ?_
  refine leg_isSome ⟨_, rfl⟩ fun _ => leg_isSome h.validL8 fun _ => leg_isSome ⟨_, rfl⟩ fun _ => leg_isSome h.validL12 fun _ => ?_
  exact leg_isSome h.validL13 fun _ => h.validL14

end Legs

/-- What the layout needs of an accepted descriptor. -/
structure Accepted (d : Descriptor) : Prop extends Bounded d where
  pos : 0 < d.threadCount
  distinct : ∀ t j k c c', index d.threads 0 = some t → k < j → j < t.capCount → index t.caps j = some c →
    index t.caps k = some c' → tokenOf c ≠ tokenOf c'
  bell : ∀ i t j c, i < d.threadCount → index d.threads i = some t → j < t.capCount → index t.caps j = some c →
    tokenOf c = tokDoorbell → c.badge = doorbellBadge d.lineCount

theorem accepted_of_valid {d : Descriptor} (h : d.valid = some true) : Accepted d := by
  simp only [Descriptor.valid, leg_eq_true, Option.some.injEq] at h
  obtain ⟨h1, h2, -, -, -, h6, -, -, -, -, -, h14⟩ := h
  have hb := bounded_of_legs h1 h2
  -- one thread receives on the endpoint, so there is a thread
  have hpos : 0 < d.threadCount := by
    by_contra hnot
    have h0 : d.threadCount = 0 := by omega
    simp [Descriptor.validL6, Descriptor.epHolderCount, Descriptor.holderCount, h0, countOf] at h6
  obtain ⟨t, ht⟩ := hb.thread hpos
  rw [Descriptor.validL14, if_neg hpos.ne', ht] at h14
  simp only [Option.bind_eq_bind, Option.bind_some, Option.pure_def] at h14
  obtain ⟨b, hpairs⟩ : ∃ b, every (fun j => every (fun k => (index t.caps j).bind fun c => (index t.caps k).bind fun c' =>
      some (decide (tokenOf c ≠ tokenOf c'))) (List.range j)) (List.range t.capCount) = some b := by
    obtain hn | hb := Option.eq_none_or_eq_some (every (fun j =>
        every (fun k => (index t.caps j).bind fun c => (index t.caps k).bind fun c' =>
      some (decide (tokenOf c ≠ tokenOf c'))) (List.range j)) (List.range t.capCount))
    · rw [hn] at h14
      cases h14
    · exact hb
  rw [hpairs] at h14
  cases b with
  | false => cases h14
  | true =>
    simp only [Option.bind_some, if_true] at h14
    refine ⟨hb, hpos, ?_, ?_⟩
    · intro t' j k c c' ht' hk hj hc hc'
      obtain rfl : t = t' := Option.some.inj (ht.symm.trans ht')
      have hjk := every_eq_true.mp (every_eq_true.mp hpairs j (List.mem_range.mpr hj)) k (List.mem_range.mpr hk)
      rw [hc, hc'] at hjk
      simpa using hjk
    · intro i t' j c hi ht' hj hc htok
      have hi' := every_eq_true.mp h14 i (List.mem_range.mpr hi)
      rw [ht'] at hi'
      have hj' := every_eq_true.mp hi' j (List.mem_range.mpr hj)
      rw [hc] at hj'
      simpa [htok] using hj'

end KickOS.Driver
