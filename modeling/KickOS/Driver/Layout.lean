import KickOS.Driver.Valid

/-! The layout of the entry thread's capabilities: the tokens it holds, each at a place of its own, thread 0's
capabilities first. -/

namespace KickOS.Driver

section Tokens

variable {d : Descriptor} {i j : Nat} {t : Thread} {c : Cap}

theorem Bounded.token_lt (h : Bounded d) (hi : i < d.threadCount) (ht : index d.threads i = some t) (hj : j < t.capCount)
    (hc : index t.caps j = some c) : tokenOf c < tokCount := by
  obtain ⟨hres, -⟩ := h.resource i t j c hi ht hj hc
  have hlines := h.lines
  unfold resLine0 at hres
  unfold linesMax at hlines
  unfold tokenOf tokDoorbell tokLine0 resLine0 tokCount tokLine0 linesMax
  split_ifs <;> omega

theorem Bounded.named (h : Bounded d) (tok : Nat) :
    ∀ i ∈ List.range d.threadCount, ∃ b, (index d.threads i).bind (fun t =>
      anyOf (fun j => (index t.caps j).bind fun c => some (decide (tokenOf c = tok))) (List.range t.capCount)) = some b := by
  intro i hi
  obtain ⟨t, ht⟩ := h.thread (List.mem_range.mp hi)
  rw [ht]
  refine anyOf_isSome ?_
  intro j hj
  obtain ⟨c, hc⟩ := h.cap (List.mem_range.mp hi) ht (List.mem_range.mp hj)
  exact ⟨_, by rw [hc]; rfl⟩

theorem Bounded.tokenHeld (h : Bounded d) (tok : Nat) : ∃ b, d.tokenHeld tok = some b := by
  unfold Descriptor.tokenHeld
  split_ifs
  · exact ⟨_, rfl⟩
  · exact ⟨_, rfl⟩
  · exact anyOf_isSome (h.named tok)

theorem Bounded.token_held (h : Bounded d) (hi : i < d.threadCount) (ht : index d.threads i = some t) (hj : j < t.capCount)
    (hc : index t.caps j = some c) : d.tokenHeld (tokenOf c) = some true := by
  unfold Descriptor.tokenHeld
  split_ifs with h0 hline
  · rfl
  · obtain ⟨hres, -⟩ := h.resource i t j c hi ht hj hc
    unfold tokenOf tokDoorbell tokLine0 resLine0 at *
    split_ifs at * <;> simp <;> omega
  · refine (anyOf_eq_true (h.named _)).mpr ⟨i, List.mem_range.mpr hi, ?_⟩
    rw [ht]
    refine (anyOf_eq_true ?_).mpr ⟨j, List.mem_range.mpr hj, by rw [hc]; simp⟩
    intro k hk
    obtain ⟨c', hc'⟩ := h.cap hi ht (List.mem_range.mp hk)
    exact ⟨_, by rw [hc']; rfl⟩

end Tokens

/-- The tokens with a place are one to one with the places given so far. -/
structure Placed (l : Layout) : Prop where
  lt : ∀ tok, l.place tok ≠ tokNone → l.place tok < l.count
  inj : ∀ tok tok', l.place tok ≠ tokNone → l.place tok = l.place tok' → tok = tok'
  onto : ∀ p, p < l.count → ∃ tok, l.place tok = p
  small : l.count < tokNone

section Placing

variable {d : Descriptor} {l : Layout} {t : Thread}

theorem placed_init : Placed {} where
  lt := by intro tok h; exact absurd rfl h
  inj := by intro tok tok' h; exact absurd rfl h
  onto := by intro p hp; cases hp
  small := by decide

theorem Placed.put (h : Placed l) (tok : Fin tokCount) (hnone : l.place tok = tokNone) (hroom : l.count + 1 < tokNone) :
    ∃ l', l.put tok = some l' ∧ l'.count = l.count + 1 ∧ l'.place tok = l.count ∧
      (∀ tok', tok' ≠ tok → l'.place tok' = l.place tok') ∧ Placed l' := by
  refine ⟨{ place := Function.update l.place tok l.count, count := l.count + 1 }, ?_, rfl, Function.update_self ..,
    fun tok' hne => Function.update_of_ne hne .., ?_, ?_, ?_, hroom⟩
  · rw [Layout.put, store_of_lt l.place tok.isLt]
    rfl
  · intro tok' hne
    obtain rfl | hother := eq_or_ne tok' tok
    · simp
    · simp only [Function.update_of_ne hother] at hne ⊢
      exact Nat.lt_succ_of_lt (h.lt tok' hne)
  · intro a b hne heq
    simp only [Function.update_apply] at hne heq
    split_ifs at hne heq with ha hb hb
    · rw [ha, hb]
    · have := h.lt b (by omega)
      omega
    · have := h.lt a hne
      omega
    · exact h.inj a b hne heq
  · intro p hp
    simp only at hp
    obtain hlt | rfl : p < l.count ∨ p = l.count := by omega
    · obtain ⟨tok', rfl⟩ := h.onto p hlt
      have hother : tok' ≠ tok := by
        rintro rfl
        rw [hnone] at hlt
        have := h.small
        omega
      exact ⟨tok', Function.update_of_ne hother _ _⟩
    · exact ⟨tok, Function.update_self ..⟩

/-- The first `k` capabilities of thread 0 have their places, and no other token has one. -/
structure CapsPlaced (t : Thread) (k : Nat) (l : Layout) : Prop where
  placed : Placed l
  count : l.count = k
  own : ∀ j c tok, j < k → index t.caps j = some c → tokenOf c = tok → ∀ h : tok < tokCount, l.place ⟨tok, h⟩ = j
  only : ∀ tok, l.place tok ≠ tokNone → ∃ j c, j < k ∧ index t.caps j = some c ∧ tokenOf c = tok

theorem placeCaps_spec (h : Accepted d) (ht : index d.threads 0 = some t) {m k : Nat} (hm : k + m = t.capCount)
    (hl : CapsPlaced t k l) : ∃ l', placeCaps t (List.range' k m) l = some l' ∧ CapsPlaced t t.capCount l' := by
  induction m generalizing k l with
  | zero => exact ⟨l, rfl, by rw [← hm]; exact hl⟩
  | succ m ih =>
    have hk : k < t.capCount := by omega
    have hcaps : t.capCount ≤ 3 := h.caps 0 t h.pos ht
    obtain ⟨c, hc⟩ := h.cap h.pos ht hk
    have htok := h.token_lt h.pos ht hk hc
    have hnone : l.place ⟨tokenOf c, htok⟩ = tokNone := by
      by_contra hne
      obtain ⟨j, c', hj, hc', heq⟩ := hl.only _ hne
      exact h.distinct t k j c c' ht hj hk hc hc' heq.symm
    have hsmall : l.count + 1 < tokNone := by
      rw [hl.count, tokNone]
      omega
    obtain ⟨l', hput, hcount, hself, hother, hplaced⟩ := hl.placed.put ⟨tokenOf c, htok⟩ hnone hsmall
    have hnext : CapsPlaced t (k + 1) l' := by
      refine ⟨hplaced, by rw [hcount, hl.count], ?_, ?_⟩
      · intro j c' tok hj hc' heq hlt
        obtain hjk | rfl : j < k ∨ j = k := by omega
        · have hne : (⟨tok, hlt⟩ : Fin tokCount) ≠ ⟨tokenOf c, htok⟩ := by
            intro he
            have hv : tok = tokenOf c := congrArg Fin.val he
            exact h.distinct t k j c c' ht hjk hk hc hc' (heq.trans hv).symm
          rw [hother _ hne]
          exact hl.own j c' tok hjk hc' heq hlt
        · obtain rfl : c = c' := Option.some.inj (hc.symm.trans hc')
          subst heq
          rw [hself, hl.count]
      · intro tok hne
        obtain rfl | hdiff := eq_or_ne tok ⟨tokenOf c, htok⟩
        · exact ⟨k, c, Nat.lt_succ_self k, hc, rfl⟩
        · rw [hother _ hdiff] at hne
          obtain ⟨j, c', hj, hc', heq⟩ := hl.only tok hne
          exact ⟨j, c', Nat.lt_succ_of_lt hj, hc', heq⟩
    obtain ⟨l'', hrest, hfin⟩ := ih (show k + 1 + m = t.capCount by omega) hnext
    refine ⟨l'', ?_, hfin⟩
    rw [List.range'_succ, placeCaps, hc]
    simp only [Option.bind_eq_bind, Option.bind_some]
    rw [hput]
    exact hrest

theorem placeRest_spec (h : Bounded d) {ts : List Nat} (hts : ∀ tok ∈ ts, tok < tokCount) (hl : Placed l)
    (hroom : l.count + ts.length < tokNone) : ∃ l', d.placeRest ts l = some l' ∧ Placed l' ∧
    (∀ tok, l.place tok ≠ tokNone → l'.place tok = l.place tok) ∧
    (∀ tok : Fin tokCount, l'.place tok ≠ tokNone → l.place tok ≠ tokNone ∨ d.tokenHeld tok = some true) ∧
      ∀ tok : Fin tokCount, tok.val ∈ ts → d.tokenHeld tok = some true → l'.place tok ≠ tokNone := by
  induction ts generalizing l with
  | nil => exact ⟨l, rfl, hl, fun _ _ => rfl, fun _ hne => .inl hne, by simp⟩
  | cons tok ts ih =>
    have htok := hts tok (List.mem_cons_self ..)
    have hrest : ∀ tok' ∈ ts, tok' < tokCount := fun tok' hm => hts tok' (List.mem_cons_of_mem _ hm)
    rw [List.length_cons] at hroom
    obtain ⟨b, hb⟩ := h.tokenHeld tok
    have hidx : index l.place tok = some (l.place ⟨tok, htok⟩) := index_of_lt l.place htok
    by_cases hnone : l.place ⟨tok, htok⟩ = tokNone
    · cases b with
      | true =>
        obtain ⟨l₁, hput, hcount, hat, hother, hplaced⟩ := hl.put ⟨tok, htok⟩ hnone (by omega)
        have hkeep : ∀ tok', l.place tok' ≠ tokNone → l₁.place tok' = l.place tok' := by
          intro tok' hne
          refine hother tok' ?_
          rintro rfl
          exact hne hnone
        have hself : l₁.place ⟨tok, htok⟩ ≠ tokNone := by
          have := hl.small
          rw [hat]
          omega
        obtain ⟨l', hrun, hp, hsame, hheld, hall⟩ := ih hrest hplaced (by rw [hcount]; omega)
        refine ⟨l', ?_, hp, ?_, ?_, ?_⟩
        · rw [Descriptor.placeRest, hidx]
          simp only [Option.bind_eq_bind, Option.bind_some, hnone, if_true, hb]
          rw [hput]
          exact hrun
        · intro tok' hne
          rw [hsame tok' (by rw [hkeep tok' hne]; exact hne), hkeep tok' hne]
        · intro tok' hne
          obtain rfl | hdiff := eq_or_ne tok' ⟨tok, htok⟩
          · exact .inr hb
          · obtain hin | hin := hheld tok' hne
            · left
              rwa [hother _ hdiff] at hin
            · exact .inr hin
        · intro tok' hmem hin
          obtain heq | hmem := List.mem_cons.mp hmem
          · obtain rfl : tok' = ⟨tok, htok⟩ := Fin.ext heq
            rw [hsame _ hself]
            exact hself
          · exact hall tok' hmem hin
      | false =>
        obtain ⟨l', hrun, hp, hsame, hheld, hall⟩ := ih hrest hl (by omega)
        refine ⟨l', ?_, hp, hsame, hheld, ?_⟩
        · rw [Descriptor.placeRest, hidx]
          simp only [Option.bind_eq_bind, Option.bind_some, hnone, if_true, hb]
          exact hrun
        · intro tok' hmem hin
          obtain heq | hmem := List.mem_cons.mp hmem
          · rw [heq, hb] at hin
            cases hin
          · exact hall tok' hmem hin
    · obtain ⟨l', hrun, hp, hsame, hheld, hall⟩ := ih hrest hl (by omega)
      refine ⟨l', ?_, hp, hsame, hheld, ?_⟩
      · rw [Descriptor.placeRest, hidx]
        simp only [Option.bind_eq_bind, Option.bind_some, hnone, if_false]
        exact hrun
      · intro tok' hmem hin
        obtain heq | hmem := List.mem_cons.mp hmem
        · obtain rfl : tok' = ⟨tok, htok⟩ := Fin.ext heq
          rw [hsame _ hnone]
          exact hnone
        · exact hall tok' hmem hin

end Placing

/-- The layout of a descriptor: the tokens held, one to one onto the places, with thread 0's capability `j` at place `j`. -/
structure Fits (d : Descriptor) (l : Layout) : Prop where
  held : ∀ tok : Fin tokCount, l.place tok ≠ tokNone ↔ d.tokenHeld tok = some true
  lt : ∀ tok : Fin tokCount, d.tokenHeld tok = some true → l.place tok < l.count
  inj : ∀ tok tok' : Fin tokCount, d.tokenHeld tok = some true → d.tokenHeld tok' = some true →
    l.place tok = l.place tok' → tok = tok'
  onto : ∀ p, p < l.count → ∃ tok : Fin tokCount, d.tokenHeld tok = some true ∧ l.place tok = p
  own : ∀ t j c tok, index d.threads 0 = some t → j < t.capCount → index t.caps j = some c → tokenOf c = tok →
    ∀ h : tok < tokCount, l.place ⟨tok, h⟩ = j

theorem layout_fits {d : Descriptor} (h : Accepted d) : ∃ l, d.layoutOf = some l ∧ Fits d l := by
  obtain ⟨t, ht⟩ := h.thread h.pos
  have hinit : CapsPlaced t 0 {} :=
    ⟨placed_init, rfl, by intro j c tok hj; exact absurd hj (Nat.not_lt_zero j), by intro tok hne; exact absurd rfl hne⟩
  obtain ⟨l₀, hcaps, hl₀⟩ := placeCaps_spec h ht (Nat.zero_add _) hinit
  have hthree : t.capCount ≤ 3 := h.caps 0 t h.pos ht
  obtain ⟨l, hrest, hp, hsame, hheld, hall⟩ := placeRest_spec h.toBounded (fun tok hm => List.mem_range.mp hm) hl₀.placed
    (by rw [hl₀.count, List.length_range]; unfold tokCount tokLine0 linesMax tokNone; omega)
  have hiff : ∀ tok : Fin tokCount, l.place tok ≠ tokNone ↔ d.tokenHeld tok = some true := by
    intro tok
    constructor
    · intro hne
      obtain hin | hin := hheld tok hne
      · obtain ⟨j, c, hj, hc, heq⟩ := hl₀.only tok hin
        rw [← heq]
        exact h.token_held h.pos ht hj hc
      · exact hin
    · exact hall tok (List.mem_range.mpr tok.isLt)
  refine ⟨l, ?_, hiff, ?_, ?_, ?_, ?_⟩
  · rw [Descriptor.layoutOf, if_pos h.pos.ne', ht]
    simp only [Option.bind_eq_bind, Option.bind_some]
    rw [List.range_eq_range' (n := t.capCount), hcaps]
    exact hrest
  · intro tok hin
    exact hp.lt tok ((hiff tok).mpr hin)
  · intro tok tok' hin _ heq
    exact hp.inj tok tok' ((hiff tok).mpr hin) heq
  · intro p hlt
    obtain ⟨tok, rfl⟩ := hp.onto p hlt
    have hsmall := hp.small
    exact ⟨tok, (hiff tok).mp (by omega), rfl⟩
  · intro t' j c tok ht' hj hc heq hlt
    obtain rfl : t = t' := Option.some.inj (ht.symm.trans ht')
    have hown := hl₀.own j c tok hj hc heq hlt
    rw [hsame _ (by rw [hown, tokNone]; omega), hown]

end KickOS.Driver
