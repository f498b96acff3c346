import KickOS.Walk.Map

/-! What `remove_run` does: the leaves it clears, and the tables `detach_empty` takes out of the tree. -/

namespace KickOS
namespace Walk

open Lib.Radix
open Function (update update_apply update_of_ne update_self)

variable {b h va pages : Nat}

/-! ### Leaves cleared -/

theorem slot_of_leaf {t : Table b Leaf (h + 1)} {p : Nat} {l : Leaf} (hl : walk (h + 1) t p = .leaf l) :
    ∃ f c, t (index b (h + 1) p) = .table f c ∧ walk h c p = .leaf l := by
  rw [walk] at hl
  rcases hs : t (index b (h + 1) p) with _ | l' | ⟨f, c⟩
  · rw [hs] at hl
    cases hl
  · rw [hs] at hl
    cases hl
  · rw [hs] at hl
    exact ⟨f, c, rfl, hl⟩

theorem clearLeaf_of_slot {t : Table b Leaf (h + 1)} {c : Table b Leaf h} {p f : Nat} (hs : t (index b (h + 1) p) = .table f c) :
    clearLeaf (h + 1) t p = update t (index b (h + 1) p) (.table f (clearLeaf h c p)) := by
  rw [clearLeaf, hs]

theorem clearLeaf_walk {t : Table b Leaf h} {p q : Nat} {l : Leaf} (hl : walk h t p = .leaf l)
    (hq : q / span b (h + 1) = p / span b (h + 1)) : walk h (clearLeaf h t p) q = if q = p then .none else walk h t q := by
  induction h with
  | zero =>
    have hi : index b 0 q = index b 0 p ↔ q = p := by
      rw [index_eq_iff hq, span_zero, Nat.div_one, Nat.div_one]
    unfold walk clearLeaf
    rw [update_apply]
    by_cases hqp : q = p
    · rw [if_pos (hi.2 hqp), if_pos hqp]
    · rw [if_neg fun hc => hqp (hi.1 hc), if_neg hqp]
  | succ h ih =>
    obtain ⟨f, c, hs, hc⟩ := slot_of_leaf hl
    rw [clearLeaf_of_slot hs]
    by_cases hi : index b (h + 1) q = index b (h + 1) p
    · rw [walk_of_slot (by rw [hi]; exact update_self ..), ih hc ((index_eq_iff hq).1 hi),
        walk_of_slot (by rw [hi]; exact hs)]
    · rw [walk_of_ne hi, if_neg]
      rintro rfl
      exact hi rfl

theorem clearLeaf_frames (t : Table b Leaf h) (p : Nat) : frames h (clearLeaf h t p) = frames h t := by
  induction h with
  | zero => rfl
  | succ h ih =>
    rw [clearLeaf]
    rcases hs : t (index b (h + 1) p) with _ | l | ⟨f, c⟩
    · rfl
    · rfl
    · have hu := frames_update t (index b (h + 1) p) (.table f (clearLeaf h c p))
      rw [hs] at hu
      simp only [slotFrames, ih c] at hu
      exact add_right_cancel hu

theorem clearLeaf_clean {t : Table b Leaf h} {p : Nat} {P : Set Nat} (hp : p ∈ P) (hc : Clean h t P) :
    Clean h (clearLeaf h t p) P := by
  induction h generalizing P with
  | zero => trivial
  | succ h ih =>
    rw [clearLeaf]
    rcases hs : t (index b (h + 1) p) with _ | l | ⟨f, c⟩
    · exact hc
    · exact hc
    · intro i g d hd
      dsimp only at hd
      rw [update_apply] at hd
      split_ifs at hd with hi
      · cases hd
        refine .inr ⟨⟨p, hp, hi.symm⟩, ?_⟩
        subst hi
        refine ih ⟨hp, rfl⟩ ?_
        rcases hc _ _ _ hs with hg | hg
        · exact hg.2.clean _
        · exact hg.2
      · exact hc i g d hd

theorem clearLeaf_adds {t₀ t : Table b Leaf h} {p : Nat} (ha : Adds h t₀ t) (hp : walk h t₀ p = .none) :
    Adds h t₀ (clearLeaf h t p) := by
  induction h with
  | zero =>
    intro i
    rw [clearLeaf, update_apply]
    split_ifs with hi
    · right
      subst hi
      rw [walk] at hp
      rcases ht : t₀ (index b 0 p) with _ | l
      · rfl
      · rw [ht] at hp
        cases hp
    · exact ha i
  | succ h ih =>
    rw [clearLeaf]
    rcases hs : t (index b (h + 1) p) with _ | l | ⟨f, c⟩
    · exact ha
    · exact ha
    · intro i
      dsimp only
      rw [update_apply]
      split_ifs with hi
      · subst hi
        rcases ha (index b (h + 1) p) with he | he | ⟨g, d, d', he, he', hd⟩
        · have he' := hs ▸ he.symm
          refine .inr (.inr ⟨f, c, _, he', rfl, ih .refl ?_⟩)
          rw [← walk_of_slot he']
          exact hp
        · exact .inr (.inl he)
        · rw [hs] at he'
          cases he'
          refine .inr (.inr ⟨f, d, _, he, rfl, ih hd ?_⟩)
          rw [← walk_of_slot he]
          exact hp
      · exact ha i

theorem clearRun_keeps {motive : Table b Leaf h → Prop} (n : Nat) {t : Table b Leaf h}
    (hstep : ∀ t p l, va ≤ p → p < va + n → walk h t p = .leaf l → motive t → motive (clearLeaf h t p)) (ht : motive t) :
    motive (clearRun n t va) := by
  induction n generalizing t va with
  | zero => exact ht
  | succ n ih =>
    rw [clearRun]
    rcases hw : walk h t va with _ | l | l
    · exact ht
    · exact ht
    · exact ih (fun t p l hlo hhi => hstep t p l (by omega) (by omega)) (hstep t va l le_rfl (by omega) hw ht)

theorem clearRun_walk {n done : Nat} {t : Table b Leaf h} (hone : Within b h va n) (hdone : done ≤ n)
    (hleaf : ∀ p, va ≤ p → p < va + done → ∃ l, walk h t p = .leaf l) (hstop : done < n → ∀ l, walk h t (va + done) ≠ .leaf l)
    {q : Nat} (hq : q / span b (h + 1) = va / span b (h + 1)) :
    walk h (clearRun n t va) q = if va ≤ q ∧ q < va + done then .none else walk h t q := by
  induction n generalizing t va done with
  | zero => rw [clearRun, if_neg (by omega)]
  | succ n ih =>
    rcases done with _ | done
    · rw [clearRun, if_neg (by omega)]
      rcases hw : walk h t va with _ | l | l
      · rfl
      · rfl
      · exact absurd hw (hstop (Nat.succ_pos n) l)
    · obtain ⟨l, hl⟩ := hleaf va le_rfl (by omega)
      rw [clearRun, hl]
      dsimp only
      rcases Nat.eq_zero_or_pos n with rfl | hn
      · obtain rfl : done = 0 := by omega
        rw [clearRun, clearLeaf_walk hl hq]
        exact if_congr (by omega) rfl rfl
      · have hnext : (va + 1) / span b (h + 1) = va / span b (h + 1) := hone _ (by omega) (by omega)
        have hw : ∀ p, va + 1 ≤ p → p < va + (n + 1) → walk h (clearLeaf h t va) p = walk h t p := fun p hlo hhi => by
          rw [clearLeaf_walk hl (hone p (by omega) hhi), if_neg (by omega)]
        have hih : walk h (clearRun n (clearLeaf h t va) (va + 1)) q =
            if va + 1 ≤ q ∧ q < va + 1 + done then .none else walk h (clearLeaf h t va) q := by
          refine ih (fun p hlo hhi => ?_) (by omega) (fun p hlo hhi => ?_) (fun hlt l => ?_) ?_
          · rw [hnext]
            exact hone p (by omega) (by omega)
          · rw [hw p hlo (by omega)]
            exact hleaf p (by omega) (by omega)
          · rw [hw _ (by omega) (by omega), show va + 1 + done = va + (done + 1) by omega]
            exact hstop (by omega) l
          · rw [hnext]
            exact hq
        rw [hih, clearLeaf_walk hl hq]
        by_cases hin : va + 1 ≤ q ∧ q < va + 1 + done
        · rw [if_pos hin, if_pos (by omega)]
        · rw [if_neg hin]
          exact if_ctx_congr (by omega) (fun _ => rfl) fun _ => rfl

/-! ### Tables detached -/

theorem tableEmpty_iff {t : Table b Leaf h} : tableEmpty h t = true ↔ Blank h t := by
  cases h with
  | zero => simp [tableEmpty, Blank, List.all_eq_true]
  | succ h =>
    have hs : ∀ s : Slot (Table b Leaf h) Leaf, s.isEmpty = true ↔ s = .empty := by
      intro s
      cases s <;> simp [Slot.isEmpty]
    simp [tableEmpty, Blank, List.all_eq_true, hs]

theorem frames_of_blank {t : Table b Leaf h} (he : Blank h t) : frames h t = 0 := by
  cases h with
  | zero => rfl
  | succ h => exact Finset.sum_eq_zero fun i _ => by rw [he i]; rfl

def between (lo hi : Nat) : Set Nat := { p | lo ≤ p ∧ p < hi }

/-- What a call leaves of a table that it is to clean between two pages. -/
structure DetachSpec {h : Nat} (t : Table b Leaf h) (lo hi : Nat) (d : List Nat) (t' : Table b Leaf h)
    (d' : List Nat) : Prop where
  finds : ∀ p, walk h t' p = walk h t p
  frames : ∃ out : List Nat, d' = out ++ d ∧ frames h t = frames h t' + (out : Multiset Nat)
  adds : ∀ t₀, Adds h t₀ t → NoEmpty h t₀ → Adds h t₀ t'

/-- The tables below are cleaned as specified. -/
def Cleans (child : Table b Leaf h → Nat → Nat → List Nat → Table b Leaf h × List Nat × Bool) : Prop :=
  ∀ c lo hi d, Within b h lo (hi - lo) → DetachSpec c lo hi d (child c lo hi d).1 (child c lo hi d).2.1 ∧
    (Clean h c (between lo hi) → NoEmpty h (child c lo hi d).1) ∧ ((child c lo hi d).2.2 = true ↔ Blank h (child c lo hi d).1)

variable {child : Table b Leaf h → Nat → Nat → List Nat → Table b Leaf h × List Nat × Bool} {kept : Fin (2 ^ b) → Bool}

theorem DetachSpec.refl (t : Table b Leaf h) (lo hi : Nat) (d : List Nat) : DetachSpec t lo hi d t d :=
  ⟨fun _ => rfl, ⟨[], rfl, by simp⟩, fun _ ha _ => ha⟩

theorem DetachSpec.trans {t u v : Table b Leaf h} {lo mid hi : Nat} {d d' d'' : List Nat} (h1 : DetachSpec t lo mid d u d')
    (h2 : DetachSpec u mid hi d' v d'') : DetachSpec t lo hi d v d'' := by
  obtain ⟨out, ho, hf⟩ := h1.frames
  obtain ⟨out', ho', hf'⟩ := h2.frames
  refine ⟨fun p => (h2.finds p).trans (h1.finds p), ⟨out' ++ out, by rw [ho', ho, List.append_assoc], ?_⟩,
    fun t₀ ha hn => h2.adds t₀ (h1.adds t₀ ha hn) hn⟩
  rw [hf, hf', add_assoc, Multiset.coe_add]

theorem DetachSpec.below {t : Table b Leaf (h + 1)} {c c' : Table b Leaf h} {i : Fin (2 ^ b)} {f lo hi : Nat} {d d' : List Nat}
    (hs : t i = .table f c) (hc : DetachSpec c lo hi d c' d') : DetachSpec t lo hi d (update t i (.table f c')) d' := by
  obtain ⟨out, ho, hf⟩ := hc.frames
  refine ⟨fun p => ?_, ⟨out, ho, ?_⟩, fun t₀ ha hn j => ?_⟩
  · by_cases hi : index b (h + 1) p = i
    · rw [walk_of_slot (by rw [hi]; exact update_self ..), hc.finds, walk_of_slot (by rw [hi]; exact hs)]
    · exact walk_of_ne hi
  · have hu := frames_update t i (.table f c')
    rw [hs] at hu
    simp only [slotFrames, hf] at hu
    refine add_right_cancel (b := f ::ₘ Lib.Radix.frames h c') ?_
    rw [← hu, ← Multiset.cons_add, add_right_comm, add_assoc]
  · rw [update_apply]
    split_ifs with hj
    · subst hj
      rcases ha j with he | he | ⟨g, e, e', he, he', hd⟩
      · have he' := hs ▸ he.symm
        exact .inr (.inr ⟨f, c, c', he', rfl, hc.adds c .refl (hn _ _ _ he').2⟩)
      · exact .inr (.inl he)
      · rw [hs] at he'
        cases he'
        exact .inr (.inr ⟨f, e, c', he, rfl, hc.adds e hd (hn _ _ _ he).2⟩)
    · exact ha j

theorem DetachSpec.detach {t : Table b Leaf (h + 1)} {c c' : Table b Leaf h} {i : Fin (2 ^ b)} {f lo hi : Nat} {d d' : List Nat}
    (hs : t i = .table f c) (hc : DetachSpec c lo hi d c' d') (he : Blank h c') :
    DetachSpec t lo hi d (update t i .empty) (f :: d') := by
  obtain ⟨out, ho, hf⟩ := hc.frames
  refine ⟨fun p => ?_, ⟨f :: out, by rw [ho]; rfl, ?_⟩, fun t₀ ha hn j => ?_⟩
  · by_cases hi : index b (h + 1) p = i
    · rw [walk_of_empty (by rw [hi]; exact update_self ..), walk_of_slot (by rw [hi]; exact hs), ← hc.finds, he.walk]
    · exact walk_of_ne hi
  · have hu := frames_update t i .empty
    rw [hs] at hu
    simp only [slotFrames, hf, frames_of_blank he, zero_add, add_zero] at hu
    exact hu.symm
  · rw [update_apply]
    split_ifs with hj
    · subst hj
      -- a table of the first tree holds something, and still does
      have hstays : ∀ e, t₀ j = .table f e → Adds h e c → False := fun e hte hec =>
        (hn _ _ _ hte).1 ((hc.adds e hec (hn _ _ _ hte).2).blank he)
      rcases ha j with hj | hj | ⟨g, e, e', hj, hj', hd⟩
      · exact (hstays c (hs ▸ hj.symm) .refl).elim
      · exact .inr (.inl hj)
      · rw [hs] at hj'
        cases hj'
        exact (hstays e hj hd).elim
    · exact ha j

theorem clean_advance {t t' : Table b Leaf (h + 1)} {lo mid hi : Nat}
    (hmid : ∀ p, lo ≤ p → p < mid → index b (h + 1) p = index b (h + 1) lo)
    (hother : ∀ j, j ≠ index b (h + 1) lo → t' j = t j)
    (hgood : ∀ f c, t' (index b (h + 1) lo) = .table f c → ¬ Blank h c ∧ NoEmpty h c) (hc : Clean (h + 1) t (between lo hi)) :
    Clean (h + 1) t' (between mid hi) := by
  intro j f c hs
  by_cases hj : j = index b (h + 1) lo
  · subst hj
    exact .inl (hgood f c hs)
  · rw [hother j hj] at hs
    have hpast : ∀ p, p ∈ between lo hi → index b (h + 1) p = j → p ∈ between mid hi := fun p hp hi =>
      ⟨Nat.le_of_not_lt fun hlt => hj (hi ▸ hmid p hp.1 hlt), hp.2⟩
    rcases hc j f c hs with hg | ⟨⟨p, hp, hi⟩, hcl⟩
    · exact .inl hg
    · exact .inr ⟨⟨p, hpast p hp hi, hi⟩, hcl.mono fun q hq => ⟨hpast q hq.1 hq.2, hq.2⟩⟩

theorem detachLoop_spec (hchild : Cleans child) (kept : Fin (2 ^ b) → Bool) (n : Nat) {t : Table b Leaf (h + 1)}
    {at_ stop : Nat} {d : List Nat} (hn : stop - at_ ≤ n) (hone : Within b (h + 1) at_ (stop - at_)) :
    DetachSpec t at_ stop d (detachLoop child kept n t at_ stop d).1 (detachLoop child kept n t at_ stop d).2 ∧
      (∀ i, kept i = true → (detachLoop child kept n t at_ stop d).1 i = t i) ∧
      (Clean (h + 1) t (between at_ stop) → (∀ i, kept i = true → ∀ f c, t i = .table f c → ¬ Blank h c ∧ NoEmpty h c) →
        NoEmpty (h + 1) (detachLoop child kept n t at_ stop d).1) := by
  induction n generalizing t at_ d with
  | zero =>
    refine ⟨.refl .., fun _ _ => rfl, fun hc _ => hc.noEmpty fun p hp => ?_⟩
    have h1 := hp.1
    have h2 := hp.2
    omega
  | succ n ih =>
    rw [detachLoop]
    by_cases hstop : stop ≤ at_
    · rw [if_pos hstop]
      refine ⟨.refl .., fun _ _ => rfl, fun hc _ => hc.noEmpty fun p hp => ?_⟩
      have h1 := hp.1
      have h2 := hp.2
      omega
    rw [if_neg hstop]
    dsimp only
    obtain ⟨next, hnext⟩ : ∃ x, min (at_ / span b (h + 1) * span b (h + 1) + span b (h + 1)) stop = x := ⟨_, rfl⟩
    rw [hnext]
    have hpos := span_pos b (h + 1)
    have hdm := Nat.div_add_mod' at_ (span b (h + 1))
    have hmod := Nat.mod_lt at_ hpos
    have hlt : at_ < next := by omega
    have hle : next ≤ stop := by omega
    have hdiv : ∀ p, at_ ≤ p → p < next → p / span b (h + 1) = at_ / span b (h + 1) := fun p hlo hhi => by
      refine Nat.div_eq_of_lt_le (by omega) ?_
      rw [Nat.succ_mul]
      omega
    have hmid : ∀ p, at_ ≤ p → p < next → index b (h + 1) p = index b (h + 1) at_ := fun p hlo hhi => index_congr (hdiv p hlo hhi)
    have hrest : ∀ t' d', DetachSpec t at_ next d t' d' → (∀ j, j ≠ index b (h + 1) at_ → t' j = t j) →
        (kept (index b (h + 1) at_) = true → t' (index b (h + 1) at_) = t (index b (h + 1) at_)) →
        (Clean (h + 1) t (between at_ stop) → (∀ i, kept i = true → ∀ f c, t i = .table f c → ¬ Blank h c ∧ NoEmpty h c) →
          ∀ f c, t' (index b (h + 1) at_) = .table f c → ¬ Blank h c ∧ NoEmpty h c) →
        DetachSpec t at_ stop d (detachLoop child kept n t' next stop d').1 (detachLoop child kept n t' next stop d').2 ∧
          (∀ i, kept i = true → (detachLoop child kept n t' next stop d').1 i = t i) ∧
          (Clean (h + 1) t (between at_ stop) → (∀ i, kept i = true → ∀ f c, t i = .table f c → ¬ Blank h c ∧ NoEmpty h c) →
            NoEmpty (h + 1) (detachLoop child kept n t' next stop d').1) := by
      intro t' d' hstep hother hkept hgood
      have hone' : Within b (h + 1) next (stop - next) := fun p hlo hhi => by
        rw [hone p (by omega) (by omega)]
        exact (hone next (by omega) (by omega)).symm
      obtain ⟨h1, h2, h3⟩ := ih (t := t') (d := d') (by omega) hone'
      have hsame : ∀ i, kept i = true → t' i = t i := fun i hi => by
        by_cases hx : i = index b (h + 1) at_
        · rw [hx]
          exact hkept (hx ▸ hi)
        · exact hother i hx
      refine ⟨hstep.trans h1, fun i hi => (h2 i hi).trans (hsame i hi), fun hc hk => h3 ?_ fun i hi f c hs => ?_⟩
      · exact clean_advance hmid hother (hgood hc hk) hc
      · exact hk i hi f c (hsame i hi ▸ hs)
    rcases hs : t (index b (h + 1) at_) with _ | l | ⟨f, c⟩
    · refine hrest t d (.refl ..) (fun _ _ => rfl) (fun _ => rfl) fun _ _ f c hx => ?_
      rw [hs] at hx
      cases hx
    · refine hrest t d (.refl ..) (fun _ _ => rfl) (fun _ => rfl) fun _ _ f c hx => ?_
      rw [hs] at hx
      cases hx
    · dsimp only
      split_ifs with hk hem
      · exact hrest t d (.refl ..) (fun _ _ => rfl) (fun _ => rfl) fun _ hg f c hx => hg _ hk f c hx
      · obtain ⟨hsp, -, hemp⟩ := hchild c at_ next d fun p hlo hhi => hdiv p hlo (by omega)
        refine hrest _ _ (hsp.detach hs (hemp.1 hem)) (fun j hj => update_of_ne hj _ _) (fun hk' => absurd hk' hk)
          fun _ _ g e hx => ?_
        rw [update_self] at hx
        cases hx
      · obtain ⟨hsp, hcl, hemp⟩ := hchild c at_ next d fun p hlo hhi => hdiv p hlo (by omega)
        refine hrest _ _ (hsp.below hs) (fun j hj => update_of_ne hj _ _) (fun hk' => absurd hk' hk)
          fun hc _ g e hx => ?_
        rw [update_self] at hx
        cases hx
        refine ⟨fun hc' => hem (hemp.2 hc'), hcl ?_⟩
        rcases hc _ _ _ hs with hg | ⟨-, hg⟩
        · exact hg.2.clean _
        · refine hg.mono fun p hp => ⟨hp.1.1, ?_⟩
          have hin := hone p hp.1.1 (by have := hp.1.2; omega)
          have hd := (index_eq_iff hin).1 hp.2
          have hlt' : p < at_ / span b (h + 1) * span b (h + 1) + span b (h + 1) := by
            have hpm := Nat.div_add_mod' p (span b (h + 1))
            have hpl := Nat.mod_lt p hpos
            rw [← hd]
            omega
          have := hp.1.2
          omega

theorem cleans_leaf : Cleans fun (c : Table b Leaf 0) _ _ d => (c, d, tableEmpty 0 c) :=
  fun c lo hi d _ => ⟨.refl c lo hi d, fun _ => trivial, tableEmpty_iff (t := c)⟩

theorem cleans_detachEmpty (h : Nat) : Cleans (detachEmpty h fun _ : Fin (2 ^ b) => false) := by
  induction h with
  | zero =>
    intro c lo hi d hone
    obtain ⟨h1, -, h3⟩ := detachLoop_spec cleans_leaf (fun _ => false) (hi - lo) (t := c) (d := d) le_rfl hone
    exact ⟨h1, fun hc => h3 hc fun i hi => absurd hi Bool.false_ne_true, tableEmpty_iff (h := 1)⟩
  | succ h ih =>
    intro c lo hi d hone
    obtain ⟨h1, -, h3⟩ := detachLoop_spec ih (fun _ => false) (hi - lo) (t := c) (d := d) le_rfl hone
    exact ⟨h1, fun hc => h3 hc fun i hi => absurd hi Bool.false_ne_true, tableEmpty_iff (h := h + 2)⟩

theorem detachEmpty_spec (kept : Fin (2 ^ b) → Bool) {t : Table b Leaf (h + 1)} {lo hi : Nat} {d : List Nat}
    (hone : Within b (h + 1) lo (hi - lo)) :
    DetachSpec t lo hi d (detachEmpty h kept t lo hi d).1 (detachEmpty h kept t lo hi d).2.1 ∧
      (∀ i, kept i = true → (detachEmpty h kept t lo hi d).1 i = t i) ∧
      (Clean (h + 1) t (between lo hi) → (∀ i, kept i = true → ∀ f c, t i = .table f c → ¬ Blank h c ∧ NoEmpty h c) →
        NoEmpty (h + 1) (detachEmpty h kept t lo hi d).1) := by
  cases h with
  | zero => exact detachLoop_spec cleans_leaf kept (hi - lo) le_rfl hone
  | succ h => exact detachLoop_spec (cleans_detachEmpty h) kept (hi - lo) le_rfl hone

end Walk
end KickOS
