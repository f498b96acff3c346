import KickOS.Walk.Kept

/-! Maps and unmaps as transactions, and the one thing in their way: `detach_empty` passes the root's kept slots by, so the tables
a map out of frames built under one of them, and the leaf tables an unmap empties there, stay linked. -/

namespace KickOS
namespace Walk

open Lib.Radix
open Function (update update_of_ne update_self)

variable {b top va pages pa : Nat} {attrs : BitVec 64} {pool : Pool} {root : Table b Leaf (top + 1)} {kept : Fin (2 ^ b) → Bool}

/-! ### What a walk is to do -/

/-- Every translation, the tables and the free frames are as they were. -/
def Restored (root : Table b Leaf (top + 1)) (pool : Pool) (w : Walked b top) : Prop :=
  (∀ p, walk (top + 1) w.root p = walk (top + 1) root p) ∧ frames (top + 1) w.root = frames (top + 1) root ∧
    ∀ i, w.pool.taken i = pool.taken i

/-- The space's count follows its tables. -/
def Counted (root : Table b Leaf (top + 1)) (w : Walked b top) : Prop :=
  ∀ (s : Space b top) (base : BitVec 32), s.root = root → s.tables = base + BitVec.ofNat 32 (frames (top + 1) s.root).card →
    (s.moved w).tables = base + BitVec.ofNat 32 (frames (top + 1) (s.moved w).root).card

/-- Some page of the range is under a larger leaf. -/
def Covered (root : Table b Leaf (top + 1)) (va pages : Nat) : Prop :=
  ∃ p l, va ≤ p ∧ p < va + pages ∧ walk (top + 1) root p = .block l

/-- `walk_map` of a range without a leaf: all of it, with as many frames as estimated and where there are as many, or nothing. -/
structure MapMeets (root : Table b Leaf (top + 1)) (va pages pa : Nat) (attrs : BitVec 64) (pool : Pool)
    (w : Walked b top) : Prop where
  answers : w.rc = .ok ↔ ¬ Covered root va pages ∧ tablesNeeded root va pages ≤ pool.free
  done : w.rc = .ok → (∀ p, p < span b (top + 2) → walk (top + 1) w.root p =
    if va ≤ p ∧ p < va + pages then .leaf ⟨attrs, pa + (p - va)⟩ else walk (top + 1) root p) ∧
      w.pool.free + tablesNeeded root va pages = pool.free
  failed : w.rc ≠ .ok → Restored root pool w
  noEmpty : NoEmpty (top + 1) w.root
  counted : Counted root w

/-- `walk_unmap`: exactly the range, where all of it is mapped. -/
structure UnmapMeets (root : Table b Leaf (top + 1)) (va pages : Nat) (pool : Pool) (w : Walked b top) : Prop where
  answers : w.rc = .ok ↔ ∀ p, va ≤ p → p < va + pages → ∃ l, walk (top + 1) root p = .leaf l
  done : w.rc = .ok → ∀ p, p < span b (top + 2) → walk (top + 1) w.root p =
    if va ≤ p ∧ p < va + pages then .none else walk (top + 1) root p
  failed : w.rc ≠ .ok → Restored root pool w
  noEmpty : NoEmpty (top + 1) w.root
  counted : Counted root w

/-! ### What is in the way -/

/-- The frames do not last for the range, and do last into the part of it under a kept slot that needs a table. -/
def MapLeaks (kept : Fin (2 ^ b) → Bool) (root : Table b Leaf (top + 1)) (va pages : Nat) (pool : Pool) : Prop :=
  ¬ Covered root va pages ∧ pool.free < tablesNeeded root va pages ∧
    ∃ i, kept i = true ∧ slotFrom top va i < slotTo top va pages i ∧
      tablesNeeded root (slotFrom top va i) (slotTo top va pages i - slotFrom top va i) ≠ 0 ∧
      tablesNeeded root va (slotFrom top va i - va) < pool.free

/-- The range is mapped, and is all that a leaf table under a kept slot holds. -/
def UnmapLeaks (kept : Fin (2 ^ b) → Bool) (root : Table b Leaf (top + 1)) (va pages : Nat) : Prop :=
  allLeaves root va pages = true ∧ ∃ p, va ≤ p ∧ p < va + pages ∧ kept (index b (top + 1) p) = true ∧
    ∀ q, q / span b 1 = p / span b 1 → walk (top + 1) root q ≠ .none → va ≤ q ∧ q < va + pages

theorem Counted.of_edit {w : Walked b top}
    (hc : w.edit.tables + BitVec.ofNat 32 (frames (top + 1) root).card = BitVec.ofNat 32 (frames (top + 1) w.root).card) :
    Counted root w := by
  rintro s base rfl hs
  show s.tables + w.edit.tables = base + BitVec.ofNat 32 (frames (top + 1) w.root).card
  rw [hs, ← hc, BitVec.add_assoc, BitVec.add_comm w.edit.tables]

theorem einval_ne_ok : Result.einval ≠ .ok := by decide

theorem restored_self (rc : Result) : Restored root pool ⟨root, pool, {}, rc⟩ := ⟨fun _ => rfl, rfl, fun _ => rfl⟩

theorem counted_self (rc : Result) : Counted root ⟨root, pool, {}, rc⟩ := .of_edit (BitVec.zero_add _)

theorem foldl_sub_one (l : List Nat) (n : BitVec 32) : l.foldl (fun n _ => n - 1) n = n - BitVec.ofNat 32 l.length := by
  induction l generalizing n with
  | nil => simp
  | cons a l ih =>
    rw [List.foldl_cons, ih, List.length_cons, BitVec.ofNat_add, BitVec.sub_sub, BitVec.add_comm (BitVec.ofNat 32 l.length)]
    rfl

theorem removeRun_eq {e : Edit} (kept : Fin (2 ^ b) → Bool) (t : Table b Leaf (top + 1)) (va pages : Nat)
    (pool : Pool) (rc : Result) (he : e.detached = []) : removeRun kept t va pages pool e rc =
      ⟨(detachEmpty top kept (clearRun pages t va) va (va + pages) []).1,
        (detachEmpty top kept (clearRun pages t va) va (va + pages) []).2.1.foldl Pool.release pool,
        ⟨e.tables - BitVec.ofNat 32 (detachEmpty top kept (clearRun pages t va) va (va + pages) []).2.1.length, []⟩, rc⟩ := by
  unfold removeRun
  dsimp only
  rw [he, foldl_sub_one]

/-! ### The check before a map -/

theorem scan_covered {n m : Nat} (hc : Covered root va n) (hl : ∀ p l, va ≤ p → p < va + n → walk (top + 1) root p ≠ .leaf l) :
    scan root n va m = none := by
  induction n generalizing va m with
  | zero =>
    obtain ⟨p, l, h1, h2, -⟩ := hc
    omega
  | succ n ih =>
    rw [scan]
    rcases hw : walk (top + 1) root va with _ | l | l
    · obtain ⟨p, l, h1, h2, hp⟩ := hc
      have hne : p ≠ va := by
        rintro rfl
        rw [hw] at hp
        cases hp
      exact ih ⟨p, l, by omega, by omega, hp⟩ fun q l h1 h2 => hl q l (by omega) (by omega)
    · rfl
    · exact absurd hw (hl va l le_rfl (by omega))

theorem scan_bare {n m : Nat} (hb : Bare (top + 1) root va n) : scan root n va m = some m := by
  induction n generalizing va with
  | zero => rfl
  | succ n ih =>
    rw [scan, hb va le_rfl (by omega)]
    exact ih fun p hlo hhi => hb p (by omega) (by omega)

theorem walkMap_bare (hb : Bare (top + 1) root va pages) : walkMap kept root va pa pages attrs pool =
    if (mapInto attrs (top + 1) root va pages pa pool {}).ok then
      ⟨(mapInto attrs (top + 1) root va pages pa pool {}).table, (mapInto attrs (top + 1) root va pages pa pool {}).pool,
        (mapInto attrs (top + 1) root va pages pa pool {}).edit, .ok⟩
    else removeRun kept (mapInto attrs (top + 1) root va pages pa pool {}).table va pages
      (mapInto attrs (top + 1) root va pages pa pool {}).pool (mapInto attrs (top + 1) root va pages pa pool {}).edit
        .enomem := by
  unfold walkMap
  rw [scan_bare hb]
  dsimp only
  rw [if_neg fun hc => hc.1 rfl]

/-! ### A map out of frames -/

/-- What a map out of frames leaves, once its leaves are cleared and its empty tables detached. -/
structure Unwound (kept : Fin (2 ^ b) → Bool) (root : Table b Leaf (top + 1)) (va pages : Nat) (pool : Pool)
    (w : Walked b top) : Prop where
  adds : NoEmpty (top + 1) root → Adds (top + 1) root w.root
  finds : ∀ p, walk (top + 1) w.root p = walk (top + 1) root p
  /-- The tables under a kept slot are those the map left there. -/
  slot : ∀ i, kept i = true → slotFrom top va i < slotTo top va pages i →
    (slotFrames (frames top) (w.root i)).card = (slotFrames (frames top) (root i)).card +
      min (tablesNeeded root (slotFrom top va i) (slotTo top va pages i - slotFrom top va i))
        (pool.free - tablesNeeded root va (slotFrom top va i - va))
  other : ∀ i, kept i = true → ¬ slotFrom top va i < slotTo top va pages i → w.root i = root i
  noEmpty : NoEmpty (top + 1) root → (∀ i, kept i = true → w.root i = root i) → NoEmpty (top + 1) w.root
  moved : ∃ (p' : Pool) (new out : List Nat), pool.Takes p' new ∧
    frames (top + 1) w.root + (out : Multiset Nat) = frames (top + 1) root + (new : Multiset Nat) ∧
    w.pool = out.foldl Pool.release p' ∧ w.edit.tables = BitVec.ofNat 32 new.length - BitVec.ofNat 32 out.length

theorem not_meets {i : Fin (2 ^ b)} (hfit : va + pages ≤ span b (top + 2))
    (hm : ¬ slotFrom top va i < slotTo top va pages i) {p : Nat} (hlo : va ≤ p) (hhi : p < va + pages) :
    index b (top + 1) p ≠ i := by
  intro hi
  have := (index_root (by omega)).1 hi
  unfold slotFrom slotTo at hm
  omega

theorem walk_root (t : Table b Leaf (top + 1)) (p : Nat) : walk (top + 1) t p = walk (top + 1) t (p % span b (top + 2)) :=
  walk_mod (Nat.mod_mod _ _).symm

theorem removeRun_unwound (kept : Fin (2 ^ b) → Bool) (attrs : BitVec 64) (pa : Nat) (pool : Pool)
    (hfit : va + pages ≤ span b (top + 2)) (hb : Bare (top + 1) root va pages) :
    Unwound kept root va pages pool (removeRun kept (mapInto attrs (top + 1) root va pages pa pool {}).table va pages
      (mapInto attrs (top + 1) root va pages pa pool {}).pool (mapInto attrs (top + 1) root va pages pa pool {}).edit
        .enomem) := by
  have hone := within_root hfit
  have hspec := mapInto_spec attrs (top + 1) root va pages pa pool {} hone hb
  have hslot : ∀ i : Fin (2 ^ b), slotFrom top va i < slotTo top va pages i → _ := fun i hm =>
    mapInto_slot attrs pa pool {} hfit hb hm
  have hoff : ∀ i, ¬ slotFrom top va i < slotTo top va pages i →
      (mapInto attrs (top + 1) root va pages pa pool {}).table i = root i :=
    fun i hm => mapLoop_off pages fun p hlo hhi => not_meets hfit hm hlo hhi
  obtain ⟨r, hr⟩ : ∃ r, mapInto attrs (top + 1) root va pages pa pool {} = r := ⟨_, rfl⟩
  rw [hr] at hspec hoff ⊢
  rw [hr] at hslot
  obtain ⟨done, hle, -, hw⟩ := hspec.finds
  obtain ⟨new, hf, htk, hed, -⟩ := hspec.takes
  -- the leaves cleared
  obtain ⟨t, ht⟩ : ∃ t, clearRun pages r.table va = t := ⟨_, rfl⟩
  have hadds : Adds (top + 1) root t := ht ▸ clearRun_keeps (motive := Adds (top + 1) root) pages
    (fun t p l hlo hhi _ ha => clearLeaf_adds ha (hb p hlo hhi)) hspec.adds
  have hframes : frames (top + 1) t = frames (top + 1) r.table :=
    ht ▸ clearRun_keeps (motive := fun t => frames (top + 1) t = frames (top + 1) r.table) pages
      (fun t p l _ _ _ he => (clearLeaf_frames t p).trans he) rfl
  have hcard : ∀ i, slotFrames (frames top) (t i) = slotFrames (frames top) (r.table i) :=
    ht ▸ clearRun_keeps (motive := fun t : Table b Leaf (top + 1) =>
        ∀ i, slotFrames (frames top) (t i) = slotFrames (frames top) (r.table i)) pages
      (fun t p l _ _ _ he i => (clearLeaf_slotFrames t p i).trans (he i)) fun _ => rfl
  have htoff : ∀ i, ¬ slotFrom top va i < slotTo top va pages i → t i = r.table i := fun i hm =>
    ht ▸ clearRun_keeps (motive := fun t : Table b Leaf (top + 1) => t i = r.table i) pages
      (fun t p l hlo hhi _ he => (clearLeaf_off (not_meets hfit hm hlo hhi)).trans he) rfl
  have hfinds : ∀ p, p < span b (top + 2) → walk (top + 1) t p = walk (top + 1) root p := by
    intro p hp
    rcases Nat.eq_zero_or_pos pages with rfl | hpos
    · rw [← ht, ← hr]
      rfl
    have hva : p / span b (top + 1 + 1) = va / span b (top + 1 + 1) := by rw [div_root hp, div_root (by omega)]
    have hrun := clearRun_walk (t := r.table) hone hle (fun q h1 h2 => ⟨_, by rw [hw q (hone q h1 (by omega)), if_pos ⟨h1, h2⟩]⟩)
      (fun hlt l => by
        rw [hw _ (hone _ (by omega) (by omega)), if_neg (by omega), hb _ (by omega) (by omega)]
        exact fun hc => by cases hc) hva
    rw [ht] at hrun
    rw [hrun, hw p hva]
    split_ifs with hin
    · rw [hb p hin.1 (by omega)]
    · rfl
  have hclean : NoEmpty (top + 1) root → Clean (top + 1) t (between va (va + pages)) := fun hn =>
    ht ▸ clearRun_keeps (motive := fun t => Clean (top + 1) t (between va (va + pages))) pages
      (fun t p l hlo hhi _ hc => clearLeaf_clean ⟨hlo, hhi⟩ hc) (hspec.clean _ (fun p hlo hhi => ⟨hlo, hhi⟩) (hn.clean _))
  -- the empty tables detached
  have hone' : Within b (top + 1) va (va + pages - va) := by rwa [Nat.add_sub_cancel_left]
  obtain ⟨hd, hsame, hnoEmpty⟩ := detachEmpty_spec kept (t := t) (d := []) hone'
  obtain ⟨out, ho, hfo⟩ := hd.frames
  have hedit : r.edit.detached = [] := by rw [hed]
  have hrun := removeRun_eq kept r.table va pages r.pool .enomem hedit
  rw [ht, ho, List.append_nil] at hrun
  have hroot : (removeRun kept r.table va pages r.pool r.edit .enomem).root = (detachEmpty top kept t va (va + pages) []).1 := by
    rw [hrun]
  have hpool : (removeRun kept r.table va pages r.pool r.edit .enomem).pool = out.foldl Pool.release r.pool := by rw [hrun]
  have htables : (removeRun kept r.table va pages r.pool r.edit .enomem).edit.tables =
      BitVec.ofNat 32 new.length - BitVec.ofNat 32 out.length := by
    rw [hrun, hed]
    simp
  refine ⟨?_, fun p => ?_, fun i hk hm => ?_, fun i hk hm => ?_, fun hn hk => ?_, r.pool, new, out, htk, ?_, hpool, htables⟩
  · rw [hroot]
    exact hd.adds root hadds
  · rw [hroot, hd.finds, walk_root, hfinds _ (Nat.mod_lt _ (span_pos ..)), ← walk_root]
  · rw [hroot, hsame i hk, hcard, hslot i hm]
  · rw [hroot, hsame i hk, htoff i hm, hoff i hm]
  · rw [hroot] at hk ⊢
    refine hnoEmpty (hclean hn) fun i hi f c hs => hn i f c ?_
    rw [← hk i hi, hsame i hi]
    exact hs
  · rw [hroot, ← hfo, hframes, hf]

theorem Unwound.restored {w : Walked b top} (h : Unwound kept root va pages pool w) (hn : NoEmpty (top + 1) root)
    (hk : ∀ i, kept i = true → slotFrom top va i < slotTo top va pages i →
      min (tablesNeeded root (slotFrom top va i) (slotTo top va pages i - slotFrom top va i))
        (pool.free - tablesNeeded root va (slotFrom top va i - va)) = 0) :
    w.root = root ∧ w.edit.tables = 0 ∧ ∀ i, w.pool.taken i = pool.taken i := by
  have hadds := h.adds hn
  have hsame : ∀ i, kept i = true → w.root i = root i := by
    intro i hi
    by_cases hm : slotFrom top va i < slotTo top va pages i
    · have hcard := h.slot i hi hm
      rw [hk i hi hm, Nat.add_zero] at hcard
      -- the slot alone, in the place of the old one
      have hone : update root i (w.root i) = root := by
        refine eq_of_adds_card (h := top + 1) (fun j => ?_) ?_ fun p hp => ?_
        · rcases eq_or_ne j i with rfl | hj
          · rw [update_self]
            exact hadds j
          · rw [update_of_ne hj]
            exact .inl rfl
        · have hx := card_slot fun j (hj : j ≠ i) => update_of_ne hj (w.root i) root
          rw [update_self] at hx
          omega
        · by_cases hpi : index b (top + 1) p = i
          · rw [← h.finds p]
            unfold walk at hp ⊢
            rw [hpi, update_self] at hp
            rw [hpi]
            exact hp
          · rwa [walk_of_ne hpi] at hp
      rw [← congrFun hone i, update_self]
    · exact h.other i hi hm
  have hroot : w.root = root := eq_of_adds hadds (h.noEmpty hn hsame) fun p hp => by rwa [← h.finds p]
  obtain ⟨p', new, out, htk, hf, hpool, htab⟩ := h.moved
  rw [hroot] at hf
  have hperm : (out : Multiset Nat) = new := add_left_cancel hf
  have hlen : out.length = new.length := by rw [← Multiset.coe_card, hperm, Multiset.coe_card]
  refine ⟨hroot, ?_, fun i => ?_⟩
  · rw [htab, hlen, BitVec.sub_self]
    rfl
  · rw [hpool]
    refine htk.undo (fun j => ?_) i
    rw [← Multiset.mem_coe, hperm, Multiset.mem_coe]

theorem Unwound.not_restored {w : Walked b top} {i : Fin (2 ^ b)} (h : Unwound kept root va pages pool w)
    (hn : NoEmpty (top + 1) root) (hi : kept i = true) (hm : slotFrom top va i < slotTo top va pages i)
    (hk : min (tablesNeeded root (slotFrom top va i) (slotTo top va pages i - slotFrom top va i))
      (pool.free - tablesNeeded root va (slotFrom top va i - va)) ≠ 0) : frames (top + 1) w.root ≠ frames (top + 1) root := by
  intro he
  have hslot := (Finset.sum_eq_sum_iff_of_le fun j _ => slotFrames_le (fun _ _ hc => hc.frames_le) (h.adds hn) j).1
      he.symm i (Finset.mem_univ i)
  have hcard := h.slot i hi hm
  rw [← hslot] at hcard
  omega

theorem walkMap_meets (hfit : va + pages ≤ span b (top + 2)) (hn : NoEmpty (top + 1) root)
    (hl : ∀ p l, va ≤ p → p < va + pages → walk (top + 1) root p ≠ .leaf l) :
    MapMeets root va pages pa attrs pool (walkMap kept root va pa pages attrs pool) ↔ ¬ MapLeaks kept root va pages pool := by
  by_cases hcov : Covered root va pages
  · have hw : walkMap kept root va pa pages attrs pool = ⟨root, pool, {}, .einval⟩ := by
      unfold walkMap
      rw [scan_covered hcov hl]
    rw [hw]
    exact iff_of_true ⟨iff_of_false einval_ne_ok fun hc => hc.1 hcov, fun hr => absurd hr einval_ne_ok,
      fun _ => restored_self _, hn, counted_self _⟩ fun hleak => hleak.1 hcov
  have hb : Bare (top + 1) root va pages := by
    intro p hlo hhi
    rcases hw : walk (top + 1) root p with _ | l | l
    · rfl
    · exact absurd ⟨p, l, hlo, hhi, hw⟩ hcov
    · exact absurd hw (hl p l hlo hhi)
  have hspec := mapInto_spec attrs (top + 1) root va pages pa pool {} (within_root hfit) hb
  rw [walkMap_bare hb]
  rcases Bool.eq_false_or_eq_true (mapInto attrs (top + 1) root va pages pa pool {}).ok with hok | hok
  · have hfree := hspec.ok.1 hok
    obtain ⟨new, hf, htk, hed, hlen⟩ := hspec.takes
    obtain ⟨done, hle, hall, hw⟩ := hspec.finds
    obtain rfl := hall hok
    rw [if_pos hok]
    refine iff_of_true ⟨iff_of_true rfl ⟨hcov, hfree⟩, fun _ => ⟨fun p hp => ?_, ?_⟩, fun hr => absurd rfl hr,
      hspec.noEmpty hok hn, .of_edit ?_⟩ fun hleak => ?_
    · rcases Nat.eq_zero_or_pos done with rfl | hpos
      · rw [if_neg (by omega)]
        rfl
      · exact hw p (by rw [div_root hp, div_root (by omega)])
    · have := htk.free
      dsimp only
      omega
    · dsimp only
      rw [hf, hed, Multiset.card_add, Multiset.coe_card, BitVec.ofNat_add]
      simp [BitVec.add_comm]
    · have := hleak.2.1
      omega
  · have hu := removeRun_unwound kept attrs pa pool hfit hb
    have hshort : pool.free < tablesNeeded root va pages := by
      by_contra hc
      rw [hspec.ok.2 (by omega)] at hok
      cases hok
    rw [if_neg (by rw [hok]; exact Bool.false_ne_true)]
    have hrc : (removeRun kept (mapInto attrs (top + 1) root va pages pa pool {}).table va pages
        (mapInto attrs (top + 1) root va pages pa pool {}).pool
          (mapInto attrs (top + 1) root va pages pa pool {}).edit .enomem).rc =
        .enomem := rfl
    generalize removeRun kept (mapInto attrs (top + 1) root va pages pa pool {}).table va pages
        (mapInto attrs (top + 1) root va pages pa pool {}).pool
          (mapInto attrs (top + 1) root va pages pa pool {}).edit .enomem = w
      at hu hrc ⊢
    have hne : w.rc ≠ .ok := by
      rw [hrc]
      exact fun hc => by cases hc
    constructor
    · rintro hmeets ⟨-, -, i, hi, hm, h1, h2⟩
      exact hu.not_restored hn hi hm (by omega) (hmeets.failed hne).2.1
    · intro hleak
      obtain ⟨hroot, htab, htaken⟩ := hu.restored hn fun i hi hm => by
        by_contra hx
        exact hleak ⟨hcov, hshort, i, hi, hm, by omega, by omega⟩
      refine ⟨iff_of_false hne fun hc => hc.2.not_gt hshort, fun hr => absurd hr hne,
        fun _ => ⟨fun p => by rw [hroot], by rw [hroot], htaken⟩, by rwa [hroot], .of_edit ?_⟩
      rw [htab, hroot]
      exact BitVec.zero_add _

/-! ### An unmap -/

theorem allLeaves_iff : allLeaves root va pages = true ↔ ∀ p, va ≤ p → p < va + pages → ∃ l, walk (top + 1) root p = .leaf l := by
  unfold allLeaves
  rw [List.all_eq_true]
  constructor
  · intro h p hlo hhi
    have hp := h (p - va) (List.mem_range.2 (by omega))
    rw [Nat.add_sub_cancel' hlo] at hp
    rcases hw : walk (top + 1) root p with _ | l | l
    · rw [hw] at hp
      cases hp
    · rw [hw] at hp
      cases hp
    · exact ⟨l, rfl⟩
  · intro h i hi
    obtain ⟨l, hl⟩ := h (va + i) (by omega) (by have := List.mem_range.1 hi; omega)
    rw [hl]

theorem lt_root_of_div {p q : Nat} (hp : p < span b (top + 2)) (hq : q / span b 1 = p / span b 1) : q < span b (top + 2) := by
  have hdiv : q / span b (top + 2) = p / span b (top + 2) := div_span_mono (by omega) hq
  rw [Nat.div_eq_of_lt hp] at hdiv
  exact (Nat.div_eq_zero_iff.1 hdiv).resolve_left (span_pos ..).ne'

/-- Under a kept slot every leaf table of the range keeps a leaf, and so no table there becomes empty. -/
theorem clearRun_kept (kept : Fin (2 ^ b) → Bool) (hn : NoEmpty (top + 1) root) (hfit : va + pages ≤ span b (top + 2))
    (hk : ∀ p, va ≤ p → p < va + pages → kept (index b (top + 1) p) = true →
      ∃ q, q / span b 1 = p / span b 1 ∧ walk (top + 1) root q ≠ .none ∧ ¬ (va ≤ q ∧ q < va + pages))
    (i : Fin (2 ^ b)) (hi : kept i = true) (f : Nat) (c : Table b Leaf top) (hs : clearRun pages root va i = .table f c) :
    ¬ Blank top c ∧ NoEmpty top c := by
  -- the pages off the range keep what they find
  have hkeep : (∀ i, kept i = true → ∀ f c, clearRun pages root va i = .table f c → ¬ Blank top c ∧ NoEmpty top c) ∧
      ∀ q, q < span b (top + 2) → ¬ (va ≤ q ∧ q < va + pages) → walk (top + 1) (clearRun pages root va) q =
        walk (top + 1) root q := by
    refine clearRun_keeps (motive := fun t : Table b Leaf (top + 1) =>
      (∀ i, kept i = true → ∀ f c, t i = .table f c → ¬ Blank top c ∧ NoEmpty top c) ∧
        ∀ q, q < span b (top + 2) → ¬ (va ≤ q ∧ q < va + pages) → walk (top + 1) t q = walk (top + 1) root q) pages ?_
      ⟨fun i _ f c hs => hn i f c hs, fun _ _ _ => rfl⟩
    rintro t p l hlo hhi hl ⟨hgood, hoff⟩
    refine ⟨fun i hi f c hs => ?_, fun q hq hout => ?_⟩
    · by_cases hpi : index b (top + 1) p = i
      · subst hpi
        obtain ⟨q, hq, hw, hout⟩ := hk p hlo hhi hi
        obtain ⟨g, d, hd, hdl⟩ := slot_of_leaf hl
        have hidx : index b (top + 1) q = index b (top + 1) p := index_congr (div_span_mono (by omega) hq)
        have hqlt : q < span b (top + 2) := lt_root_of_div (by omega) hq
        have hwq : walk top d q ≠ .none := by
          rw [← walk_of_slot (by rw [hidx]; exact hd), hoff q hqlt hout]
          exact hw
        rw [clearLeaf_of_slot hd, update_self] at hs
        cases hs
        refine clearLeaf_noEmpty (hgood _ hi _ _ hd).2 hdl hq ?_ hwq
        rintro rfl
        exact hout ⟨hlo, hhi⟩
      · rw [clearLeaf_off hpi] at hs
        exact hgood i hi f c hs
    · have hqp : q ≠ p := by
        rintro rfl
        exact hout ⟨hlo, hhi⟩
      rw [clearLeaf_walk hl (by rw [div_root hq, div_root (by omega)]), if_neg hqp]
      exact hoff q hq hout
  exact hkeep.1 i hi f c hs

theorem walkUnmap_meets (hfit : va + pages ≤ span b (top + 2)) (hn : NoEmpty (top + 1) root) :
    UnmapMeets root va pages pool (walkUnmap kept root va pages pool) ↔ ¬ UnmapLeaks kept root va pages := by
  unfold walkUnmap
  rcases Bool.eq_false_or_eq_true (allLeaves root va pages) with hall | hall
  swap
  · rw [if_neg (by rw [hall]; exact Bool.false_ne_true)]
    have hnot : ¬ allLeaves root va pages = true := by rw [hall]; exact Bool.false_ne_true
    exact iff_of_true ⟨iff_of_false einval_ne_ok fun hc => hnot (allLeaves_iff.2 hc), fun hr => absurd hr einval_ne_ok,
      fun _ => restored_self _, hn, counted_self _⟩ fun hleak => hnot hleak.1
  rw [if_pos hall, removeRun_eq kept root va pages pool .ok rfl]
  have hleaf := allLeaves_iff.1 hall
  have hone : Within b (top + 1) va pages := within_root hfit
  have hone' : Within b (top + 1) va (va + pages - va) := by rwa [Nat.add_sub_cancel_left]
  obtain ⟨t, ht⟩ : ∃ t, clearRun pages root va = t := ⟨_, rfl⟩
  have hkept := fun hk => clearRun_kept kept hn hfit hk
  rw [ht] at hkept ⊢
  have hframes : frames (top + 1) t = frames (top + 1) root :=
    ht ▸ clearRun_keeps (motive := fun t => frames (top + 1) t = frames (top + 1) root) pages
      (fun t p l _ _ _ he => (clearLeaf_frames t p).trans he) rfl
  have hclean : Clean (top + 1) t (between va (va + pages)) :=
    ht ▸ clearRun_keeps (motive := fun t => Clean (top + 1) t (between va (va + pages))) pages
      (fun t p l hlo hhi _ hc => clearLeaf_clean ⟨hlo, hhi⟩ hc) (hn.clean _)
  have hlinked : ∀ p, Linked (top + 1) root p → Linked (top + 1) t p := fun p hp =>
    ht ▸ clearRun_keeps (motive := fun t => Linked (top + 1) t p) pages (fun t q l _ _ _ hl => clearLeaf_linked hl) hp
  have hfinds : ∀ p, p < span b (top + 2) → walk (top + 1) t p = if va ≤ p ∧ p < va + pages then .none else
      walk (top + 1) root p := by
    intro p hp
    rcases Nat.eq_zero_or_pos pages with rfl | hpos
    · rw [if_neg (by omega), ← ht, clearRun]
    · rw [← ht]
      exact clearRun_walk hone le_rfl hleaf (fun hlt => absurd hlt (lt_irrefl _)) (by rw [div_root hp, div_root (by omega)])
  obtain ⟨hd, hsame, hnoEmpty⟩ := detachEmpty_spec kept (t := t) (d := []) hone'
  obtain ⟨out, ho, hfo⟩ := hd.frames
  rw [List.append_nil] at ho
  rw [hframes] at hfo
  constructor
  · rintro hmeets ⟨-, p, hlo, hhi, hk, honly⟩
    obtain ⟨l, hl⟩ := hleaf p hlo hhi
    obtain ⟨f, c, hs, hc⟩ := hlinked p (linked_of_leaf hl)
    rw [← hsame _ hk] at hs
    obtain ⟨hb, hcn⟩ := hmeets.noEmpty _ f c hs
    -- the leaf table is still linked, and so holds a leaf the range left
    obtain ⟨q, hq, hw⟩ := exists_leaf_of_linked hc hcn hb
    have hqlt : q < span b (top + 2) := lt_root_of_div (by omega) hq
    have hidx : index b (top + 1) q = index b (top + 1) p := index_congr (div_span_mono (by omega) hq)
    rw [← walk_of_slot (by rw [hidx]; exact hs), hd.finds, hfinds q hqlt] at hw
    split_ifs at hw with hin
    · exact hw rfl
    · exact hin (honly q hq hw)
  · intro hleak
    have hgood := hkept fun p hlo hhi hk => by
      by_contra hx
      refine hleak ⟨hall, p, hlo, hhi, hk, fun q hq hw => ?_⟩
      by_contra hout
      exact hx ⟨q, hq, hw, hout⟩
    refine ⟨iff_of_true rfl hleaf, fun _ p hp => by rw [hd.finds, hfinds p hp], fun hr => absurd rfl hr, hnoEmpty hclean hgood,
      .of_edit ?_⟩
    dsimp only
    rw [ho, hfo, Multiset.card_add, Multiset.coe_card, BitVec.ofNat_add]
    generalize BitVec.ofNat 32 out.length = x
    generalize BitVec.ofNat 32 (Multiset.card _) = y
    bv_omega

/-! ### The walks -/

/-- For every fan-out and depth, every root without an empty table below it, every range of the space and every pool: a map of a
range without a leaf does what it is to do exactly where it leaks no table under a kept slot, and so does an unmap. -/
theorem walk_transactional (kept : Fin (2 ^ b) → Bool) (root : Table b Leaf (top + 1)) (va pages : Nat) (pool : Pool)
    (hfit : va + pages ≤ span b (top + 2)) (hn : NoEmpty (top + 1) root) :
    (∀ pa attrs, (∀ p l, va ≤ p → p < va + pages → walk (top + 1) root p ≠ .leaf l) →
      (MapMeets root va pages pa attrs pool (walkMap kept root va pa pages attrs pool) ↔ ¬ MapLeaks kept root va pages pool)) ∧
    (UnmapMeets root va pages pool (walkUnmap kept root va pages pool) ↔ ¬ UnmapLeaks kept root va pages) :=
  ⟨fun _ _ hl => walkMap_meets hfit hn hl, walkUnmap_meets hfit hn⟩

/-- Two levels of two entries, and four frames. -/
def smallPool : Pool := ⟨4, 1, 1, fun _ => false⟩

theorem walk_transactional_smallPool :
    (walkMap (fun _ => false) (zero 1 : Table 1 Leaf 1) 1 7 2 5 smallPool).rc = .ok ∧
      MapMeets (zero 1 : Table 1 Leaf 1) 1 2 7 5 smallPool (walkMap (fun _ => false) (zero 1) 1 7 2 5 smallPool) :=
  ⟨by decide, ((walk_transactional (fun _ => false) (zero 1 : Table 1 Leaf 1) 1 2 smallPool (by decide) (noEmpty_zero 1)).1 7 5
    (fun p l _ _ => by rw [(blank_zero 1).walk]; exact fun hc => by cases hc)).2 fun hleak => absurd hleak.2.1 (by decide)⟩

/-- Three levels under a kept slot, whose table has a larger leaf of the boot root in its first entry. -/
def splitRoot : Table 1 Leaf 3 := fun i =>
  if i.val = 0 then .table 8 (fun j : Fin (2 ^ 1) => if j.val = 0 then .block ⟨1, 0⟩ else .empty) else .empty

/-- The same with one page mapped in the other half. -/
def splitMapped : Table 1 Leaf 2 := fun i =>
  if i.val = 0 then .table 8 (fun j : Fin (2 ^ 1) =>
    if j.val = 0 then .block ⟨1, 0⟩ else .table 9 (fun k : Fin (2 ^ 1) => if k.val = 0 then some ⟨1, 3⟩ else none))
  else .empty

/-- The first slot, as the boot root has it. -/
def splitKept (i : Fin (2 ^ 1)) : Bool := i.val == 0

theorem noEmpty_splitRoot : NoEmpty 3 splitRoot := by
  intro i f c hs
  unfold splitRoot at hs
  split_ifs at hs
  cases hs
  refine ⟨fun he => ?_, fun j g d hd => ?_⟩
  · have hx := he (index 1 0 0)
    cases hx
  · dsimp only at hd
    split_ifs at hd

theorem noEmpty_splitMapped : NoEmpty 2 splitMapped := by
  intro i f c hs
  unfold splitMapped at hs
  split_ifs at hs
  cases hs
  refine ⟨fun he => ?_, fun j g d hd => ?_⟩
  · have hx := he (index 1 0 0)
    cases hx
  · dsimp only at hd
    split_ifs at hd
    cases hd
    refine ⟨fun he => ?_, trivial⟩
    have hx := he (index 1 0 0)
    cases hx

/-- A map that runs out of frames keeps the table it built, and an unmap the table it emptied. -/
theorem split_slot_leaks :
    (NoEmpty 3 splitRoot ∧ (∀ p l, 4 ≤ p → p < 4 + 1 → walk 3 splitRoot p ≠ .leaf l) ∧
      ¬ MapMeets splitRoot 4 1 7 5 ⟨2, 1, 1, fun _ => false⟩ (walkMap splitKept splitRoot 4 7 1 5 ⟨2, 1, 1, fun _ => false⟩)) ∧
    NoEmpty 2 splitMapped ∧
      ¬ UnmapMeets splitMapped 2 1 smallPool (walkUnmap splitKept splitMapped 2 1 smallPool) := by
  have hnone : walk 3 splitRoot 4 = .none := by decide
  have hl : ∀ p l, 4 ≤ p → p < 4 + 1 → walk 3 splitRoot p ≠ .leaf l := by
    intro p l hlo hhi
    obtain rfl : p = 4 := by omega
    rw [hnone]
    exact fun hc => by cases hc
  refine ⟨⟨noEmpty_splitRoot, hl, fun hm => ?_⟩, noEmpty_splitMapped, fun hm => ?_⟩
  · refine (walkMap_meets (by decide) noEmpty_splitRoot hl).1 hm ⟨?_, by decide,
      ⟨0, by decide⟩, by decide, by decide, by decide, by decide⟩
    rintro ⟨p, l, hlo, hhi, hw⟩
    obtain rfl : p = 4 := by omega
    rw [hnone] at hw
    cases hw
  · refine (walkUnmap_meets (by decide) noEmpty_splitMapped).1 hm ⟨by decide, 2, le_rfl, by decide, by decide, fun q hq hw => ?_⟩
    have hq' : q = 2 ∨ q = 3 := by
      have h2 : span 1 1 = 2 := by decide
      rw [h2] at hq
      omega
    rcases hq' with rfl | rfl
    · decide
    · exact absurd (by decide) hw

end Walk
end KickOS
