import KickOS.Walk.Remove

/-! The slots of the root the range meets: how many tables a map that runs out of frames leaves under each, and which leaf tables
an unmap leaves empty. -/

namespace KickOS
namespace Walk

open Lib.Radix

variable {b top va pages pa : Nat} {attrs : BitVec 64} {pool : Pool} {e : Edit} {root : Table b Leaf (top + 1)} {i : Fin (2 ^ b)}

/-- The first page of the range under a root slot, and the one after the last. -/
def slotFrom (top va : Nat) (i : Fin (2 ^ b)) : Nat := max va (i * span b (top + 1))

def slotTo (top va pages : Nat) (i : Fin (2 ^ b)) : Nat := min (va + pages) ((i + 1) * span b (top + 1))

theorem index_root {p : Nat} (hp : p < span b (top + 2)) : index b (top + 1) p = i ↔ i * span b (top + 1) ≤ p ∧
    p < (i + 1) * span b (top + 1) := by
  have hpos := span_pos b (top + 1)
  have hlt : p / span b (top + 1) < 2 ^ b := by
    rw [Nat.div_lt_iff_lt_mul hpos, Nat.mul_comm, ← span_succ]
    exact hp
  have hidx : index b (top + 1) p = i ↔ p / span b (top + 1) = i := by
    rw [Fin.ext_iff]
    show p / span b (top + 1) % 2 ^ b = i ↔ _
    rw [Nat.mod_eq_of_lt hlt]
  rw [hidx]
  constructor
  · intro hd
    rw [← hd, Nat.succ_mul]
    have hdm := Nat.div_add_mod' p (span b (top + 1))
    have hmod := Nat.mod_lt p hpos
    omega
  · rintro ⟨hlo, hhi⟩
    exact Nat.div_eq_of_lt_le hlo hhi

theorem div_root {p : Nat} (hp : p < span b (top + 2)) : p / span b (top + 1 + 1) = 0 := Nat.div_eq_of_lt hp

theorem within_root (hfit : va + pages ≤ span b (top + 2)) : Within b (top + 1) va pages := fun p hlo hhi => by
  rw [div_root (by omega), div_root (by omega)]

theorem mapLoop_cut {into : Table b Leaf top → Nat → Nat → Nat → Pool → Edit → Mapped (Table b Leaf top)} {here rest : Nat}
    (hd : here ≠ 0 → rest ≠ 0 → span b (top + 1) ∣ va + here) :
    mapLoop into (here + rest) root va (here + rest) pa pool e =
      if (mapLoop into here root va here pa pool e).ok then
        mapLoop into rest (mapLoop into here root va here pa pool e).table (va + here) rest (pa + here)
          (mapLoop into here root va here pa pool e).pool (mapLoop into here root va here pa pool e).edit
      else mapLoop into here root va here pa pool e := by
  rcases Nat.eq_zero_or_pos here with rfl | h0
  · rw [mapLoop_zero, if_pos rfl, Nat.zero_add]
    rfl
  rcases Nat.eq_zero_or_pos rest with rfl | hr
  · show mapLoop into here root va here pa pool e = _
    split_ifs with hok
    · rw [mapLoop_zero]
      rcases hm : mapLoop into here root va here pa pool e with ⟨t, p, d, ok⟩
      rw [hm] at hok
      rw [show ok = true from hok]
    · rfl
  · exact mapLoop_append _ h0 (hd h0.ne' hr.ne') le_rfl

theorem card_slot {t t' : Table b Leaf (top + 1)} (hj : ∀ j, j ≠ i → t' j = t j) :
    (frames (top + 1) t').card + (slotFrames (frames top) (t i)).card =
      (frames (top + 1) t).card + (slotFrames (frames top) (t' i)).card := by
  have ht : t' = Function.update t i (t' i) := by
    funext j
    rw [Function.update_apply]
    split_ifs with hji
    · rw [hji]
    · exact hj j hji
  have hu := frames_update t i (t' i)
  rw [← ht] at hu
  rw [← Multiset.card_add, hu, Multiset.card_add]

/-- The tables a map leaves under a slot of the root: what the range needs there, as far as the frames last. -/
theorem mapInto_slot (attrs : BitVec 64) (pa : Nat) (pool : Pool) (e : Edit) (hfit : va + pages ≤ span b (top + 2))
    (hbare : Bare (top + 1) root va pages) (hmeets : slotFrom top va i < slotTo top va pages i) :
    (slotFrames (frames top) ((mapInto attrs (top + 1) root va pages pa pool e).table i)).card =
      (slotFrames (frames top) (root i)).card +
        min (tablesNeeded root (slotFrom top va i) (slotTo top va pages i - slotFrom top va i))
          (pool.free - tablesNeeded root va (slotFrom top va i - va)) := by
  have hspec := mapInto_spec attrs top (b := b)
  obtain ⟨lo, hlo⟩ : ∃ x, slotFrom top va i = x := ⟨_, rfl⟩
  obtain ⟨hi, hhi⟩ : ∃ x, slotTo top va pages i = x := ⟨_, rfl⟩
  have hbounds : va ≤ lo ∧ (i : Nat) * span b (top + 1) ≤ lo ∧ hi ≤ va + pages ∧ hi ≤ (i + 1) * span b (top + 1) := by
    unfold slotFrom slotTo at *
    omega
  have hends : (lo = va ∨ lo = i * span b (top + 1)) ∧ (hi = va + pages ∨ hi = (i + 1) * span b (top + 1)) := by
    unfold slotFrom slotTo at *
    omega
  rw [hlo, hhi] at hmeets ⊢
  obtain ⟨here, rfl⟩ := Nat.exists_eq_add_of_le hbounds.1
  obtain ⟨m, rfl⟩ := Nat.exists_eq_add_of_le hmeets.le
  obtain ⟨rest, hrest⟩ := Nat.exists_eq_add_of_le hbounds.2.2.1
  obtain rfl : pages = here + (m + rest) := by omega
  rw [show va + here + m - (va + here) = m by omega, show va + here - va = here by omega]
  have hm0 : 0 < m := by omega
  have hslot : ∀ p, p < va + (here + (m + rest)) → (index b (top + 1) p = i ↔ (i : Nat) * span b (top + 1) ≤ p ∧
      p < (i + 1) * span b (top + 1)) :=
    fun p hp => index_root (by omega)
  -- the pages before the slot, those under it, and the rest
  show (slotFrames (frames top) ((mapLoop (mapInto attrs top) (here + (m + rest)) root va (here + (m + rest)) pa pool
    e).table i)).card = _
  rw [mapLoop_cut fun h0 _ => ?_]
  swap
  · rcases hends.1 with he | he
    · omega
    · exact Dvd.intro_left _ he.symm
  have h1 : MapSpec attrs root va here pa pool e (mapLoop (mapInto attrs top) here root va here pa pool e) :=
    mapLoop_spec hspec here le_rfl (within_root (by omega)) fun p hlo hhi => hbare p hlo (by omega)
  have hoff1 : (mapLoop (mapInto attrs top) here root va here pa pool e).table i = root i :=
    mapLoop_off here fun p hlo hhi hi => by
      have := (hslot p (by omega)).1 hi
      rcases hends.1 with he | he <;> omega
  obtain ⟨r1, hr1⟩ : ∃ r, mapLoop (mapInto attrs top) here root va here pa pool e = r := ⟨_, rfl⟩
  rw [hr1] at h1 hoff1 ⊢
  obtain ⟨new1, -, htk1, -, hlen1⟩ := h1.takes
  have hfree1 := htk1.free
  rcases Bool.eq_false_or_eq_true r1.ok with hok1 | hok1
  swap
  · rw [if_neg (by rw [hok1]; exact Bool.false_ne_true), hoff1]
    have hshort : ¬ tablesNeeded root va here ≤ pool.free := fun hc => by
      rw [h1.ok.2 hc] at hok1
      cases hok1
    rw [Nat.sub_eq_zero_of_le (by omega), Nat.min_zero, Nat.add_zero]
  have hfit1 := h1.ok.1 hok1
  rw [if_pos hok1]
  have hbare1 : Bare (top + 1) r1.table (va + here) (m + rest) := fun p hlo hhi => by
    obtain ⟨done, hle, -, hw⟩ := h1.finds
    rw [hw p (by rw [div_root (by omega), div_root (by omega)]), if_neg (by omega)]
    exact hbare p (by omega) (by omega)
  have hneed : tablesNeeded r1.table (va + here) m = tablesNeeded root (va + here) m := by
    refine tablesNeeded_congr fun j ⟨p, hpj, hplo, hphi⟩ => ?_
    have hd : ∀ q, va + here ≤ q → q < va + here + m → q / span b (top + 1) = i := fun q hlo hhi =>
      Nat.div_eq_of_lt_le (hbounds.2.1.trans hlo) (lt_of_lt_of_le hhi hbounds.2.2.2)
    rw [hd (va + here) le_rfl (by omega)] at hplo
    rw [hd (va + here + (m - 1)) (by omega) (by omega)] at hphi
    have hji : j = i := by
      rw [← hpj]
      refine Fin.ext ?_
      show p / span b (top + 1) % 2 ^ b = i
      rw [le_antisymm hphi hplo, Nat.mod_eq_of_lt i.isLt]
    rw [hji, hoff1]
  rw [mapLoop_cut fun _ h0 => ?_]
  swap
  · rcases hends.2 with he | he
    · omega
    · exact Dvd.intro_left _ he.symm
  have h2 : MapSpec attrs r1.table (va + here) m (pa + here) r1.pool r1.edit
      (mapLoop (mapInto attrs top) m r1.table (va + here) m (pa + here) r1.pool r1.edit) :=
    mapLoop_spec hspec m le_rfl (within_root (by omega)) fun p hlo hhi => hbare1 p hlo (by omega)
  have hoff2 : ∀ j, j ≠ i → (mapLoop (mapInto attrs top) m r1.table (va + here) m (pa + here) r1.pool r1.edit).table j
      = r1.table j :=
    fun j hj => mapLoop_off m fun p hlo hhi hpj => hj (by rw [← hpj]; exact (hslot p (by omega)).2 ⟨by omega, by omega⟩)
  obtain ⟨r2, hr2⟩ : ∃ r, mapLoop (mapInto attrs top) m r1.table (va + here) m (pa + here) r1.pool r1.edit = r := ⟨_, rfl⟩
  rw [hr2] at h2 hoff2 ⊢
  obtain ⟨new2, hf2, htk2, -, hlen2⟩ := h2.takes
  have hcard := card_slot hoff2
  rw [hf2, Multiset.card_add, Multiset.coe_card, hoff1] at hcard
  have hlast : (if r2.ok then mapLoop (mapInto attrs top) rest r2.table (va + here + m) rest (pa + here + m) r2.pool r2.edit
      else r2).table i = r2.table i := by
    split_ifs
    · refine mapLoop_off rest fun p hlo hhi hpi => ?_
      have := (hslot p (by omega)).1 hpi
      rcases hends.2 with he | he <;> omega
    · rfl
  rw [hlast]
  omega

/-! ### Leaves cleared under a slot -/

theorem clearLeaf_off {t : Table b Leaf (top + 1)} {p : Nat} (hi : index b (top + 1) p ≠ i) :
    clearLeaf (top + 1) t p i = t i := by
  rw [clearLeaf]
  rcases t (index b (top + 1) p) with _ | l | ⟨f, c⟩
  · rfl
  · rfl
  · exact Function.update_of_ne hi.symm _ _

theorem clearLeaf_slotFrames (t : Table b Leaf (top + 1)) (p : Nat) (i : Fin (2 ^ b)) :
    slotFrames (frames top) (clearLeaf (top + 1) t p i) = slotFrames (frames top) (t i) := by
  by_cases hi : index b (top + 1) p = i
  · subst hi
    rw [clearLeaf]
    rcases hs : t (index b (top + 1) p) with _ | l | ⟨f, c⟩
    · dsimp only
      rw [hs]
    · dsimp only
      rw [hs]
    · dsimp only
      rw [Function.update_self]
      simp only [slotFrames, clearLeaf_frames]
  · rw [clearLeaf_off hi]

theorem clearLeaf_noEmpty {h : Nat} {t : Table b Leaf h} {p q : Nat} {l : Leaf} (hn : NoEmpty h t) (hl : walk h t p = .leaf l)
    (hq : q / span b 1 = p / span b 1) (hqp : q ≠ p) (hw : walk h t q ≠ .none) :
    ¬ Blank h (clearLeaf h t p) ∧ NoEmpty h (clearLeaf h t p) := by
  induction h with
  | zero =>
    refine ⟨fun he => hw ?_, trivial⟩
    have hx := clearLeaf_walk hl hq
    rw [he.walk, if_neg hqp] at hx
    exact hx.symm
  | succ h ih =>
    obtain ⟨f, c, hs, hc⟩ := slot_of_leaf hl
    have hidx : index b (h + 1) q = index b (h + 1) p := index_congr (div_span_mono (by omega) hq)
    have hwc : walk h c q ≠ .none := by
      rw [← walk_of_slot (by rw [hidx]; exact hs)]
      exact hw
    have hgood := ih (hn _ _ _ hs).2 hc hwc
    rw [clearLeaf_of_slot hs]
    refine ⟨fun he => ?_, fun j g d hd => ?_⟩
    · have hx := he (index b (h + 1) p)
      rw [Function.update_self] at hx
      cases hx
    · rw [Function.update_apply] at hd
      split_ifs at hd with hj
      · cases hd
        exact hgood
      · exact hn j g d hd

theorem linked_of_leaf {h : Nat} {t : Table b Leaf h} {p : Nat} {l : Leaf} (hl : walk h t p = .leaf l) : Linked h t p := by
  induction h with
  | zero => trivial
  | succ h ih =>
    obtain ⟨f, c, hs, hc⟩ := slot_of_leaf hl
    exact ⟨f, c, hs, ih hc⟩

theorem clearLeaf_linked {h : Nat} {t : Table b Leaf h} {p q : Nat} (hl : Linked h t q) : Linked h (clearLeaf h t p) q := by
  induction h with
  | zero => trivial
  | succ h ih =>
    obtain ⟨f, c, hs, hc⟩ := hl
    rw [clearLeaf]
    rcases hp : t (index b (h + 1) p) with _ | l | ⟨g, d⟩
    · exact ⟨f, c, hs, hc⟩
    · exact ⟨f, c, hs, hc⟩
    · by_cases hi : index b (h + 1) q = index b (h + 1) p
      · rw [hi, hp] at hs
        cases hs
        exact ⟨f, _, by dsimp only; rw [hi, Function.update_self], ih hc⟩
      · exact ⟨f, c, by dsimp only; rw [Function.update_of_ne hi]; exact hs, hc⟩

theorem exists_leaf_of_linked {h : Nat} {t : Table b Leaf h} {p : Nat} (hl : Linked h t p) (hn : NoEmpty h t) (he : ¬ Blank h t) :
    ∃ q, q / span b 1 = p / span b 1 ∧ walk h t q ≠ .none := by
  induction h with
  | zero =>
    obtain ⟨i, hi⟩ := not_forall.1 he
    obtain ⟨q, hq, rfl⟩ := exists_page b 0 p i
    refine ⟨q, hq, fun hw => hi ?_⟩
    rw [walk] at hw
    rcases ht : t (index b 0 q) with _ | l
    · rfl
    · rw [ht] at hw
      cases hw
  | succ h ih =>
    obtain ⟨f, c, hs, hc⟩ := hl
    obtain ⟨hb, hcn⟩ := hn _ _ _ hs
    obtain ⟨q, hq, hw⟩ := ih hc hcn hb
    refine ⟨q, hq, ?_⟩
    rw [walk_of_slot (by rw [index_congr (div_span_mono (by omega) hq)]; exact hs)]
    exact hw

end Walk
end KickOS
