import Mathlib.Tactic
import KickOS.Cap.Table

/-! The slab of the capability tables (`CapChunkList` of `cap.h`, `cap_slab_attach` and `cap_slab_detach` of `cap.cc`).

Every thread slot has a row of the directory, and a table is read through its row: the entries themselves are in the
chunks. A chunk is in one row or on the free list. -/

namespace KickOS
namespace Spawn
open Function (update update_apply update_eq_self update_eq_self_iff update_idem update_of_ne update_self)

/-- `cap_directory` of a slot. -/
abbrev Row := Nat → Option Nat

/-- The first loop of `CapChunkList::take`. -/
def takeFill : Nat → List Nat → Nat → Row → List Nat × Nat × Row
  | n + 1, c :: rest, taken, row => takeFill n rest (taken + 1) (update row taken (some c))
  | _, free, taken, row => (free, taken, row)

/-- The second loop of `CapChunkList::take`: what a short list gave goes back. -/
def takeBack : Nat → List Nat → Row → List Nat
  | 0, free, _ => free
  | taken + 1, free, row => takeBack taken ((row taken).toList ++ free) row

/-- `CapChunkList::take`, into the `length` entries of a row. -/
def chunkTake (free : List Nat) (row : Row) (chunks length : Nat) : Bool × List Nat × Row :=
  let r := takeFill chunks free 0 row
  let short := r.2.1 < chunks
  let taken := if short then 0 else r.2.1
  (taken == chunks, if short then takeBack r.2.1 r.1 r.2.2 else r.1, fun j => if taken ≤ j ∧ j < length then none else r.2.2 j)

/-- The loop of `CapChunkList::give` from entry `i` on. -/
def chunkGive : Nat → Nat → List Nat → Row → List Nat × Row
  | 0, _, free, row => (free, row)
  | n + 1, i, free, row =>
    match row i with
    | none => chunkGive n (i + 1) free row
    | some c => chunkGive n (i + 1) (c :: free) (update row i none)

structure Slab where
  free : List Nat
  rows : Nat → Row := fun _ _ => none
  cells : Nat → Nat → CapEntry := fun _ _ => {}

namespace Slab

/-- The entry `j` of the table of slot `i`. -/
def entry (s : Slab) (i j : Nat) : CapEntry :=
  match s.rows i (j / kcapChunkSlots) with
  | none => {}
  | some c => s.cells c (j % kcapChunkSlots)

/-- Where the row of slot `i` has chunk `c`. -/
def placeOf (s : Slab) (length i c : Nat) : Option Nat := (List.range length).find? fun r => s.rows i r = some c

/-- The entries of the table of slot `i` are written. -/
def store (s : Slab) (length i : Nat) (slots : Nat → CapEntry) : Slab :=
  { s with cells := fun c e =>
      match s.placeOf length i c with
      | some r => slots (kcapChunkSlots * r + e)
      | none => s.cells c e }

def setRow (s : Slab) (i : Nat) (free : List Nat) (row : Row) : Slab :=
  { s with free, rows := update s.rows i row }

/-- `cap_slab_attach`: the chunks are cleared and the free list is threaded up to the width. -/
def attach (s : Slab) (length i width : Nat) : Bool × Slab :=
  let r := chunkTake s.free (s.rows i) (kcapChunksFor width) length
  let s := s.setRow i r.2.1 r.2.2
  (r.1, if r.1 then s.store length i (capRunFreeBuild {} width).slots else s)

/-- `cap_slab_detach`. -/
def detach (s : Slab) (length i : Nat) : Slab :=
  let r := chunkGive length 0 s.free (s.rows i)
  s.setRow i r.1 r.2

end Slab

/-! ### The loops -/

variable {free l : List Nat} {row : Row} {n i j t c chunks length width : Nat}

theorem takeFill_eq : ∀ (n : Nat) (free : List Nat) (t : Nat) (row : Row), takeFill n free t row =
    (free.drop n, t + min n free.length, fun j => if t ≤ j ∧ j < t + min n free.length then free[j - t]? else row j)
  | 0, free, t, row => by
    refine Prod.ext (by simp [takeFill]) (Prod.ext (by simp [takeFill]) (funext fun j => ?_))
    simp only [takeFill, Nat.zero_min, Nat.add_zero]
    rw [if_neg (by omega)]
  | n + 1, [], t, row => by
    refine Prod.ext (by simp [takeFill]) (Prod.ext (by simp [takeFill]) (funext fun j => ?_))
    simp only [takeFill, List.length_nil, Nat.min_zero, Nat.add_zero]
    rw [if_neg (by omega)]
  | n + 1, c :: rest, t, row => by
    rw [takeFill, takeFill_eq n rest]
    have hmin : min (n + 1) (c :: rest).length = min n rest.length + 1 := by
      simp only [List.length_cons]
      omega
    refine Prod.ext (by simp) (Prod.ext (by simp only [hmin]; omega) (funext fun j => ?_))
    simp only [hmin]
    rcases Nat.lt_trichotomy j t with hj | hj | hj
    · rw [if_neg (by omega), if_neg (by omega), update_of_ne (by omega)]
    · subst hj
      rw [if_neg (by omega), if_pos (by omega), update_self]
      simp
    · by_cases hlt : j < t + 1 + min n rest.length
      · rw [if_pos ⟨by omega, hlt⟩, if_pos ⟨by omega, by omega⟩, show j - t = (j - (t + 1)) + 1 by omega,
          List.getElem?_cons_succ]
      · rw [if_neg (by omega), if_neg (by omega), update_of_ne (by omega)]

theorem takeBack_eq (hr : ∀ j, j < t → row j = l[j]?) (ht : t ≤ l.length) : takeBack t free row = l.take t ++ free := by
  induction t generalizing free with
  | zero => rfl
  | succ t ih =>
    have hlt : t < l.length := by omega
    rw [takeBack, hr t (by omega), List.getElem?_eq_getElem hlt, ih (fun j hj => hr j (by omega)) (by omega),
      List.take_succ_eq_append_getElem hlt, List.append_assoc]
    rfl

theorem chunkTake_full (h : chunks ≤ free.length) : chunkTake free row chunks length =
    (true, free.drop chunks, fun j => if j < chunks then free[j]? else if j < length then none else row j) := by
  have hmin : min chunks free.length = chunks := by omega
  simp only [chunkTake, takeFill_eq, hmin, Nat.zero_add, lt_irrefl, if_false, beq_self_eq_true]
  refine Prod.ext rfl (Prod.ext rfl (funext fun j => ?_))
  simp only [Nat.sub_zero, Nat.zero_le, true_and]
  split_ifs with h1 h2 h3 h4 <;> first | rfl | omega

theorem chunkTake_short (h : free.length < chunks) : chunkTake free row chunks length =
    (false, free, fun j => if j < length then none else if j < free.length then free[j]? else row j) := by
  have hmin : min chunks free.length = free.length := by omega
  have hback : takeBack free.length (free.drop chunks) (fun j => if j < free.length then free[j]? else row j) = free := by
    rw [takeBack_eq (l := free) (fun j hj => if_pos hj) (le_refl _), List.drop_eq_nil_of_le (by omega)]
    simp
  simp only [chunkTake, takeFill_eq, hmin, Nat.zero_add, h, if_true, Nat.sub_zero, Nat.zero_le, true_and, hback]
  refine Prod.ext ?_ rfl
  have : (0 : Nat) ≠ chunks := by omega
  simpa using this

theorem chunkGive_eq : ∀ (n i : Nat) (free : List Nat) (row : Row), chunkGive n i free row =
    (((List.range' i n).filterMap row).reverse ++ free, fun j => if i ≤ j ∧ j < i + n then none else row j)
  | 0, i, free, row => by
    refine Prod.ext (by simp [chunkGive]) (funext fun j => ?_)
    simp only [chunkGive, Nat.add_zero]
    rw [if_neg (by omega)]
  | n + 1, i, free, row => by
    rw [chunkGive]
    cases hi : row i with
    | none =>
      simp only [chunkGive_eq n (i + 1) free row]
      refine Prod.ext ?_ (funext fun j => ?_)
      · simp [List.range'_succ, hi]
      · dsimp only
        by_cases hj : j = i
        · subst hj
          rw [if_neg (by omega), if_pos (by omega), hi]
        · by_cases hlt : i ≤ j ∧ j < i + (n + 1)
          · rw [if_pos hlt, if_pos (by omega)]
          · rw [if_neg hlt, if_neg (by omega)]
    | some c =>
      simp only [chunkGive_eq n (i + 1)]
      have hsame : (List.range' (i + 1) n).filterMap (update row i none) = (List.range' (i + 1) n).filterMap row := by
        refine List.filterMap_congr fun j hj => ?_
        have := (List.mem_range'_1.1 hj).1
        exact update_of_ne (by omega) _ _
      refine Prod.ext ?_ (funext fun j => ?_)
      · simp [List.range'_succ, hi, hsame]
      · dsimp only
        by_cases hj : j = i
        · subst hj
          rw [if_neg (by omega), if_pos (by omega), update_self]
        · by_cases hlt : i ≤ j ∧ j < i + (n + 1)
          · rw [if_pos hlt, if_pos (by omega)]
          · rw [if_neg hlt, if_neg (by omega), update_of_ne hj]

/-! ### Ownership -/

namespace Slab

variable {s : Slab}

/-- A chunk is in one row or on the free list, and a row ends at its length. -/
structure Owned (length : Nat) (s : Slab) : Prop where
  nodup : s.free.Nodup
  apart : ∀ i j c, s.rows i j = some c → c ∉ s.free
  one : ∀ i j i' j' c, s.rows i j = some c → s.rows i' j' = some c → i = i' ∧ j = j'
  short : ∀ i j, length ≤ j → s.rows i j = none

def Bare (s : Slab) (i : Nat) : Prop := ∀ j, s.rows i j = none

theorem placeOf_none (h : ∀ r, s.rows i r ≠ some c) : s.placeOf length i c = none := by
  simp [placeOf, h]

theorem store_cells (slots : Nat → CapEntry) (h : ∀ r, s.rows i r ≠ some c) : (s.store length i slots).cells c = s.cells c := by
  funext e
  simp only [store, placeOf_none h]

theorem attach_full (length : Nat) (hb : s.Bare i) (hc : kcapChunksFor width ≤ s.free.length) : s.attach length i width =
    (true, (s.setRow i (s.free.drop (kcapChunksFor width)) fun j => if j < kcapChunksFor width then s.free[j]? else none).store
      length i (capRunFreeBuild {} width).slots) := by
  have hrow : (fun j => if j < kcapChunksFor width then s.free[j]? else if j < length then none else s.rows i j) =
      fun j => if j < kcapChunksFor width then s.free[j]? else none := by
    funext j
    simp only [hb j, ite_self]
  simp only [attach, chunkTake_full hc, hrow, if_true]

theorem attach_short (hb : s.Bare i) (hl : kcapChunksFor width ≤ length) (hc : s.free.length < kcapChunksFor width) :
    s.attach length i width = (false, s) := by
  have hrow : (fun j => if j < length then none else if j < s.free.length then s.free[j]? else s.rows i j) = s.rows i := by
    funext j
    rw [hb j]
    by_cases hj : j < length
    · rw [if_pos hj]
    · rw [if_neg hj, if_neg (by omega)]
  simp only [attach, chunkTake_short hc, hrow, setRow, update_eq_self, Bool.false_eq_true, if_false]

theorem detach_eq (hs : ∀ j, length ≤ j → s.rows i j = none) : s.detach length i =
    s.setRow i (((List.range length).filterMap (s.rows i)).reverse ++ s.free) fun _ => none := by
  have hrow : (fun j => if 0 ≤ j ∧ j < 0 + length then none else s.rows i j) = fun _ => none := by
    funext j
    by_cases hj : j < length
    · rw [if_pos ⟨by omega, by omega⟩]
    · rw [if_neg (by omega), hs j (by omega)]
  simp only [detach, chunkGive_eq, hrow, List.range_eq_range']

theorem filterMap_getElem (l : List Nat) (hn : n ≤ length) (hl : n ≤ l.length) :
    (List.range length).filterMap (fun j => if j < n then l[j]? else none) = l.take n := by
  obtain ⟨k, rfl⟩ := Nat.exists_eq_add_of_le hn
  have hrest : ((List.range k).map (n + ·)).filterMap (fun j => if j < n then l[j]? else none) = [] := by
    rw [List.filterMap_eq_nil_iff]
    intro j hj
    obtain ⟨x, -, rfl⟩ := List.mem_map.1 hj
    exact if_neg (by omega)
  rw [List.range_add, List.filterMap_append, hrest, List.append_nil]
  clear hrest
  induction n with
  | zero => simp
  | succ n ih =>
    have hlt : n < l.length := by omega
    have hsame : (List.range n).filterMap (fun j => if j < n + 1 then l[j]? else none) =
        (List.range n).filterMap (fun j => if j < n then l[j]? else none) := by
      refine List.filterMap_congr fun j hj => ?_
      have := List.mem_range.1 hj
      rw [if_pos (by omega), if_pos this]
    rw [List.range_succ, List.filterMap_append, hsame, ih (by omega) (by omega), List.take_succ_eq_append_getElem hlt]
    simp [List.getElem?_eq_getElem hlt]

/-- Nothing but the order of the free list tells a slab that lent a run and took it back. -/
structure Restored (s s' : Slab) : Prop where
  free : s'.free.Perm s.free
  rows : s'.rows = s.rows
  cells : ∀ c, c ∉ s.free → s'.cells c = s.cells c

theorem Restored.refl (s : Slab) : Restored s s := ⟨List.Perm.refl _, rfl, fun _ _ => rfl⟩

theorem Restored.entry {s' : Slab} (h : Restored s s') (ho : s.Owned length) (i : Nat) : s'.entry i = s.entry i := by
  funext j
  rw [Slab.entry, Slab.entry, h.rows]
  cases hr : s.rows i (j / kcapChunkSlots) with
  | none => rfl
  | some c => exact congrFun (h.cells c (ho.apart _ _ c hr)) _

theorem attach_detach {s' : Slab} (hb : s.Bare i) (hl : kcapChunksFor width ≤ length)
    (h : s.attach length i width = (true, s')) : Restored s (s'.detach length i) := by
  rcases Nat.lt_or_ge s.free.length (kcapChunksFor width) with hc | hc
  · rw [attach_short hb hl hc] at h
    exact absurd (congrArg Prod.fst h) (by simp)
  · rw [attach_full length hb hc] at h
    obtain ⟨-, rfl⟩ := Prod.mk.inj h
    have hrow : ∀ u : Slab, (u.store length i (capRunFreeBuild {} width).slots).rows = u.rows := fun _ => rfl
    have hi : ∀ (u : Slab) (free : List Nat) (row : Row), (u.setRow i free row).rows i = row :=
      fun _ _ _ => update_self _ _ _
    have hsh : ∀ j, length ≤ j → (if j < kcapChunksFor width then s.free[j]? else none) = none :=
      fun j hj => if_neg (by omega)
    rw [detach_eq fun j hj => by rw [hrow, hi]; exact hsh j hj, hrow, hi, filterMap_getElem _ hl hc]
    refine ⟨?_, ?_, fun c hcf => ?_⟩
    · show ((s.free.take (kcapChunksFor width)).reverse ++ s.free.drop (kcapChunksFor width)).Perm s.free
      refine ((List.reverse_perm _).append_right _).trans ?_
      rw [List.take_append_drop]
    · show update (update s.rows i _) i _ = s.rows
      rw [update_idem]
      exact update_eq_self_iff.2 (funext fun j => (hb j).symm)
    · refine store_cells _ fun r hr => hcf ?_
      rw [hi] at hr
      split_ifs at hr with hlt
      exact List.mem_of_getElem? hr

theorem Owned.bare_attach {s' : Slab} (h : s.Owned length) (hb : s.Bare i) (hl : kcapChunksFor width ≤ length)
    (ha : s.attach length i width = (true, s')) : s'.Owned length ∧ ∀ k, k ≠ i → s'.rows k = s.rows k := by
  rcases Nat.lt_or_ge s.free.length (kcapChunksFor width) with hc | hc
  · rw [attach_short hb hl hc] at ha
    exact absurd (congrArg Prod.fst ha) (by simp)
  · rw [attach_full length hb hc] at ha
    obtain ⟨-, rfl⟩ := Prod.mk.inj ha
    set row : Row := fun j => if j < kcapChunksFor width then s.free[j]? else none with hrow
    have hat : ∀ k j, ((s.setRow i (s.free.drop (kcapChunksFor width)) row).store length i
        (capRunFreeBuild {} width).slots).rows k j = if k = i then row j else s.rows k j := fun k j => by
      show update s.rows i row k j = _
      rw [update_apply]
      split_ifs <;> rfl
    have hnew : ∀ j c, row j = some c → j < kcapChunksFor width ∧ s.free[j]? = some c := fun j c hj => by
      rw [hrow] at hj
      dsimp only at hj
      split_ifs at hj with hlt
      exact ⟨hlt, hj⟩
    refine ⟨⟨h.nodup.sublist (List.drop_sublist _ _), fun k j c hk => ?_, fun k j k' j' c hk hk' => ?_, fun k j hj => ?_⟩,
      fun k hk => funext fun j => by rw [hat, if_neg hk]⟩
    · rw [hat] at hk
      show c ∉ s.free.drop _
      by_cases hki : k = i
      · rw [if_pos hki] at hk
        obtain ⟨hlt, hget⟩ := hnew j c hk
        intro hmem
        obtain ⟨m, hm⟩ := List.getElem?_of_mem hmem
        rw [List.getElem?_drop] at hm
        have := (List.getElem?_inj (List.getElem?_eq_some_iff.1 hget).1 h.nodup).1 (hget.trans hm.symm)
        omega
      · rw [if_neg hki] at hk
        exact fun hmem => h.apart k j c hk (List.mem_of_mem_drop hmem)
    · rw [hat] at hk hk'
      by_cases hki : k = i <;> by_cases hki' : k' = i
      · rw [if_pos hki] at hk
        rw [if_pos hki'] at hk'
        obtain ⟨-, hget⟩ := hnew j c hk
        obtain ⟨-, hget'⟩ := hnew j' c hk'
        exact ⟨hki.trans hki'.symm,
          (List.getElem?_inj (List.getElem?_eq_some_iff.1 hget).1 h.nodup).1 (hget.trans hget'.symm)⟩
      · rw [if_pos hki] at hk
        rw [if_neg hki'] at hk'
        exact absurd (List.mem_of_getElem? (hnew j c hk).2) (h.apart k' j' c hk')
      · rw [if_neg hki] at hk
        rw [if_pos hki'] at hk'
        exact absurd (List.mem_of_getElem? (hnew j' c hk').2) (h.apart k j c hk)
      · rw [if_neg hki] at hk
        rw [if_neg hki'] at hk'
        exact h.one k j k' j' c hk hk'
    · rw [hat]
      split_ifs
      · exact if_neg (by omega)
      · exact h.short k j hj

theorem Owned.detach (h : s.Owned length) (i : Nat) : (s.detach length i).Owned length ∧ (s.detach length i).Bare i ∧
    ∀ k, k ≠ i → (s.detach length i).rows k = s.rows k := by
  rw [detach_eq (h.short i)]
  have hat : ∀ (free : List Nat) k j, (s.setRow i free fun _ => none).rows k j = if k = i then none else s.rows k j := by
    intro free k j
    show update s.rows i _ k j = _
    rw [update_apply]
    split_ifs <;> rfl
  have hmem : ∀ c, c ∈ ((List.range length).filterMap (s.rows i)).reverse ++ s.free ↔ (∃ j, s.rows i j = some c) ∨
      c ∈ s.free := by
    intro c
    rw [List.mem_append, List.mem_reverse, List.mem_filterMap]
    refine or_congr ⟨fun ⟨j, _, hj⟩ => ⟨j, hj⟩, fun ⟨j, hj⟩ => ⟨j, List.mem_range.2 ?_, hj⟩⟩ Iff.rfl
    by_contra hge
    rw [h.short i j (by omega)] at hj
    cases hj
  refine ⟨⟨?_, fun k j c hk hc => ?_, fun k j k' j' c hk hk' => ?_, fun k j hj => ?_⟩, fun j => ?_, fun k hk => ?_⟩
  · show (((List.range length).filterMap (s.rows i)).reverse ++ s.free).Nodup
    refine List.Nodup.append (List.nodup_reverse.2 (List.Nodup.filterMap ?_ List.nodup_range)) h.nodup ?_
    · intro a b c ha hb
      exact (h.one i a i b c ha hb).2
    · intro c hc hf
      rw [List.mem_reverse, List.mem_filterMap] at hc
      obtain ⟨j, -, hj⟩ := hc
      exact h.apart i j c hj hf
  · rw [hat] at hk
    split_ifs at hk with hki
    rcases (hmem c).1 hc with ⟨j', hj'⟩ | hf
    · exact hki (h.one k j i j' c hk hj').1
    · exact h.apart k j c hk hf
  · rw [hat] at hk hk'
    split_ifs at hk hk'
    exact h.one k j k' j' c hk hk'
  · rw [hat]
    split_ifs
    · rfl
    · exact h.short k j hj
  · rw [hat, if_pos rfl]
  · funext j
    rw [hat, if_neg hk]

theorem Owned.congr {s' : Slab} (h : s.Owned length) (hf : s'.free.Perm s.free) (hr : s'.rows = s.rows) : s'.Owned length where
  nodup := hf.nodup_iff.2 h.nodup
  apart i j c hc hm := h.apart i j c (hr ▸ hc) (hf.mem_iff.1 hm)
  one i j i' j' c hc hc' := h.one i j i' j' c (hr ▸ hc) (hr ▸ hc')
  short i j hj := hr ▸ h.short i j hj

end Slab
end Spawn
end KickOS
