import Mathlib.Tactic
import Mathlib.Algebra.BigOperators.Fin

/-! Trees of tables of one fan-out, `2 ^ b`, and one height a level: what a page finds in them, which tables they link, and how
two of them compare. -/

namespace Lib
namespace Radix
open Function (update update_of_ne update_self)

/-- An entry above the leaf tables: a table is named by its frame, and a block is a leaf of that height. -/
inductive Slot (T L : Type)
  | empty
  | block (l : L)
  | table (frame : Nat) (t : T)

/-- A table of a height; its entries of height 0 are the leaves of single pages. -/
@[reducible] def Table (b : Nat) (L : Type) : Nat → Type
  | 0 => Fin (2 ^ b) → Option L
  | h + 1 => Fin (2 ^ b) → Slot (Table b L h) L

/-- The pages under one entry of a height. -/
def span (b h : Nat) : Nat := 2 ^ (b * h)

/-- The entry of a height on the way to a page. -/
def index (b h p : Nat) : Fin (2 ^ b) := ⟨p / span b h % 2 ^ b, Nat.mod_lt _ (Nat.two_pow_pos b)⟩

/-- What the way to a page ends in. -/
inductive Found (L : Type)
  | none
  | block (l : L)
  | leaf (l : L)
  deriving DecidableEq

section Spans

variable {b h p q : Nat} {i : Fin (2 ^ b)}

theorem span_pos (b h : Nat) : 0 < span b h := Nat.two_pow_pos _

@[simp] theorem span_zero (b : Nat) : span b 0 = 1 := by simp [span]

theorem span_succ (b h : Nat) : span b (h + 1) = span b h * 2 ^ b := by
  unfold span
  rw [Nat.mul_succ, Nat.pow_add]

theorem div_span_succ (b h p : Nat) : p / span b (h + 1) = p / span b h / 2 ^ b := by
  rw [span_succ, Nat.div_div_eq_div_mul]

theorem index_eq_iff (hs : p / span b (h + 1) = q / span b (h + 1)) :
    index b h p = index b h q ↔ p / span b h = q / span b h := by
  rw [div_span_succ, div_span_succ] at hs
  unfold index
  rw [Fin.mk.injEq]
  constructor
  · intro hm
    rw [← Nat.div_add_mod (p / span b h) (2 ^ b), ← Nat.div_add_mod (q / span b h) (2 ^ b), hs, hm]
  · intro he
    rw [he]

theorem index_congr (hs : p / span b h = q / span b h) : index b h p = index b h q :=
  Fin.ext (congrArg (· % 2 ^ b) hs)

theorem div_span_mono {k : Nat} (hk : h ≤ k) (hs : p / span b h = q / span b h) : p / span b k = q / span b k := by
  induction k, hk using Nat.le_induction with
  | base => exact hs
  | succ k _ ih => rw [div_span_succ, div_span_succ, ih]

/-- A page under the entry of an index, at the place another page has under its own. -/
def place (b h : Nat) (i : Fin (2 ^ b)) (p : Nat) : Nat := i * span b h + p % span b h

theorem index_place (b h : Nat) (i : Fin (2 ^ b)) (p : Nat) : index b h (place b h i p) = i := by
  refine Fin.ext ?_
  show (i * span b h + p % span b h) / span b h % 2 ^ b = i
  rw [Nat.mul_comm, Nat.mul_add_div (span_pos b h), Nat.div_eq_of_lt (Nat.mod_lt _ (span_pos b h)), Nat.add_zero,
    Nat.mod_eq_of_lt i.isLt]

theorem place_mod (b h : Nat) (i : Fin (2 ^ b)) (p : Nat) : place b h i p % span b h = p % span b h := by
  unfold place
  rw [Nat.mul_comm, Nat.mul_add_mod, Nat.mod_mod]

theorem index_mod (hs : p % span b (h + 1) = q % span b (h + 1)) : index b h p = index b h q := by
  refine Fin.ext ?_
  show p / span b h % 2 ^ b = q / span b h % 2 ^ b
  rw [← Nat.mod_mul_right_div_self, ← Nat.mod_mul_right_div_self, ← span_succ, hs]

theorem mod_span_of_succ (hs : p % span b (h + 1) = q % span b (h + 1)) : p % span b h = q % span b h := by
  have hd : span b h ∣ span b (h + 1) := ⟨2 ^ b, span_succ b h⟩
  rw [← Nat.mod_mod_of_dvd p hd, ← Nat.mod_mod_of_dvd q hd, hs]

end Spans

variable {b : Nat} {L : Type}

def Slot.isEmpty {T : Type} : Slot T L → Bool
  | .empty => true
  | _ => false

def zero : (h : Nat) → Table b L h
  | 0 => fun _ => none
  | _ + 1 => fun _ => .empty

def walk : (h : Nat) → Table b L h → Nat → Found L
  | 0, t, p =>
    match t (index b 0 p) with
    | none => .none
    | some l => .leaf l
  | h + 1, t, p =>
    match t (index b (h + 1) p) with
    | .empty => .none
    | .block l => .block l
    | .table _ c => walk h c p

/-- No entry of the table holds anything. -/
def Blank : (h : Nat) → Table b L h → Prop
  | 0, t => ∀ i, t i = none
  | _ + 1, t => ∀ i, t i = .empty

def NoEmpty : (h : Nat) → Table b L h → Prop
  | 0, _ => True
  | h + 1, t => ∀ i f c, t i = .table f c → ¬ Blank h c ∧ NoEmpty h c

/-- A table below this one is empty only on the way to a page of the set. -/
def Clean : (h : Nat) → Table b L h → Set Nat → Prop
  | 0, _, _ => True
  | h + 1, t, P => ∀ i f c, t i = .table f c →
    (¬ Blank h c ∧ NoEmpty h c) ∨ ((∃ p ∈ P, index b (h + 1) p = i) ∧ Clean h c { p ∈ P | index b (h + 1) p = i })

/-- The second table is the first with entries added, at its leaves and below its empty entries. -/
def Adds : (h : Nat) → Table b L h → Table b L h → Prop
  | 0, t, t' => ∀ i, t' i = t i ∨ t i = none
  | h + 1, t, t' => ∀ i, t' i = t i ∨ t i = .empty ∨ ∃ f c c', t i = .table f c ∧ t' i = .table f c' ∧ Adds h c c'

/-- The frames of the tables below an entry. -/
def slotFrames {T : Type} (frames : T → Multiset Nat) : Slot T L → Multiset Nat
  | .table f c => f ::ₘ frames c
  | _ => 0

/-- The frames of the tables below this one. -/
def frames : (h : Nat) → Table b L h → Multiset Nat
  | 0, _ => 0
  | h + 1, t => ∑ i, slotFrames (frames h) (t i)

/-- The leaf table on the way to a page is there. -/
def Linked : (h : Nat) → Table b L h → Nat → Prop
  | 0, _, _ => True
  | h + 1, t, p => ∃ f c, t (index b (h + 1) p) = .table f c ∧ Linked h c p

section Walks

variable {h p q f : Nat} {i : Fin (2 ^ b)}

theorem walk_mod {t : Table b L h} (hs : p % span b (h + 1) = q % span b (h + 1)) : walk h t p = walk h t q := by
  induction h with
  | zero =>
    unfold walk
    rw [index_mod hs]
  | succ h ih =>
    unfold walk
    rw [index_mod hs]
    rcases t (index b (h + 1) q) with _ | l | ⟨f, c⟩
    · rfl
    · rfl
    · exact ih (mod_span_of_succ hs)

theorem walk_place {c : Table b L h} (i : Fin (2 ^ b)) (p : Nat) : walk h c (place b (h + 1) i p) = walk h c p :=
  walk_mod (place_mod ..)

theorem walk_of_slot {t : Table b L (h + 1)} {c : Table b L h} (hs : t (index b (h + 1) p) = .table f c) :
    walk (h + 1) t p = walk h c p := by
  rw [walk, hs]

theorem walk_of_empty {t : Table b L (h + 1)} (hs : t (index b (h + 1) p) = .empty) : walk (h + 1) t p = .none := by
  rw [walk, hs]

theorem walk_of_ne {t : Table b L (h + 1)} {v : Slot (Table b L h) L} (hi : index b (h + 1) p ≠ i) :
    walk (h + 1) (update t i v) p = walk (h + 1) t p := by
  unfold walk
  rw [update_of_ne hi]

theorem Blank.walk {t : Table b L h} (he : Blank h t) (p : Nat) : walk h t p = .none := by
  cases h with
  | zero =>
    unfold Radix.walk
    rw [he]
  | succ h => exact walk_of_empty (he _)

theorem blank_zero (h : Nat) : Blank h (zero h : Table b L h) := by
  cases h with
  | zero => exact fun _ => rfl
  | succ h => exact fun _ => rfl

theorem noEmpty_zero (h : Nat) : NoEmpty h (zero h : Table b L h) := by
  cases h with
  | zero => trivial
  | succ h =>
    intro i f c hs
    cases hs

/-- A table with something in it, and no empty table below it, holds the translation of some page. -/
theorem NoEmpty.exists_walk {t : Table b L h} (hn : NoEmpty h t) (he : ¬ Blank h t) : ∃ p, walk h t p ≠ .none := by
  induction h with
  | zero =>
    obtain ⟨i, hi⟩ := not_forall.1 he
    refine ⟨place b 0 i 0, ?_⟩
    unfold walk
    rw [index_place]
    rcases ht : t i with _ | l
    · exact absurd ht hi
    · simp
  | succ h ih =>
    obtain ⟨i, hi⟩ := not_forall.1 he
    rcases ht : t i with _ | l | ⟨f, c⟩
    · exact absurd ht hi
    · refine ⟨place b (h + 1) i 0, ?_⟩
      unfold walk
      rw [index_place, ht]
      simp
    · obtain ⟨hc, hcn⟩ := hn i f c ht
      obtain ⟨p, hp⟩ := ih hcn hc
      refine ⟨place b (h + 1) i p, ?_⟩
      rw [walk_of_slot (by rw [index_place]; exact ht), walk_place]
      exact hp

theorem NoEmpty.clean {t : Table b L h} (hn : NoEmpty h t) (P : Set Nat) : Clean h t P := by
  cases h with
  | zero => trivial
  | succ h => exact fun i f c hs => .inl (hn i f c hs)

theorem Clean.noEmpty {t : Table b L h} {P : Set Nat} (hc : Clean h t P) (hP : ∀ p, p ∉ P) : NoEmpty h t := by
  cases h with
  | zero => trivial
  | succ h =>
    intro i f c hs
    rcases hc i f c hs with hg | ⟨⟨p, hp, -⟩, -⟩
    · exact hg
    · exact absurd hp (hP p)

theorem Clean.mono {t : Table b L h} {P Q : Set Nat} (hc : Clean h t P) (hPQ : P ⊆ Q) : Clean h t Q := by
  induction h generalizing P Q with
  | zero => trivial
  | succ h ih =>
    intro i f c hs
    rcases hc i f c hs with hg | ⟨⟨p, hp, hi⟩, hcl⟩
    · exact .inl hg
    · exact .inr ⟨⟨p, hPQ hp, hi⟩, ih hcl fun q hq => ⟨hPQ hq.1, hq.2⟩⟩

end Walks

section Compare

variable {h p q f : Nat} {i : Fin (2 ^ b)}

theorem Adds.refl {t : Table b L h} : Adds h t t := by
  cases h with
  | zero => exact fun _ => .inl rfl
  | succ h => exact fun _ => .inl rfl

theorem Adds.trans {t u v : Table b L h} (h1 : Adds h t u) (h2 : Adds h u v) : Adds h t v := by
  induction h with
  | zero =>
    intro i
    rcases h1 i with ha | ha
    · rcases h2 i with hb | hb
      · exact .inl (hb.trans ha)
      · exact .inr (ha ▸ hb)
    · exact .inr ha
  | succ h ih =>
    intro i
    rcases h1 i with ha | ha | ⟨f, c, c', ha, ha', hc⟩
    · rcases h2 i with hb | hb | ⟨f, c, c', hb, hb', hc⟩
      · exact .inl (hb.trans ha)
      · exact .inr (.inl (ha ▸ hb))
      · exact .inr (.inr ⟨f, c, c', ha ▸ hb, hb', hc⟩)
    · exact .inr (.inl ha)
    · rcases h2 i with hb | hb | ⟨g, d, d', hb, hb', hd⟩
      · exact .inr (.inr ⟨f, c, c', ha, hb.trans ha', hc⟩)
      · rw [hb] at ha'
        cases ha'
      · rw [ha'] at hb
        cases hb
        exact .inr (.inr ⟨f, c, d', ha, hb', ih hc hd⟩)

theorem Adds.blank {t t' : Table b L h} (ha : Adds h t t') (he : Blank h t') : Blank h t := by
  cases h with
  | zero =>
    intro i
    rcases ha i with hi | hi
    · rw [← hi]
      exact he i
    · exact hi
  | succ h =>
    intro i
    rcases ha i with hi | hi | ⟨f, c, c', hi, hi', hc⟩
    · rw [← hi]
      exact he i
    · exact hi
    · rw [he i] at hi'
      cases hi'

/-- What is found below an entry of a table is found there in one that finds no more. -/
theorem finds_below {t t' : Table b L (h + 1)} {f' : Nat} {c c' : Table b L h} (hs : t i = .table f c) (hs' : t' i = .table f' c')
    (hw : ∀ p, walk (h + 1) t' p ≠ .none → walk (h + 1) t p ≠ .none) (p : Nat) (hp : walk h c' p ≠ .none) :
      walk h c p ≠ .none := by
  have := hw (place b (h + 1) i p)
  rw [walk_of_slot (by rw [index_place]; exact hs'), walk_of_slot (by rw [index_place]; exact hs), walk_place, walk_place] at this
  exact this hp

theorem walk_block {t : Table b L (h + 1)} {l : L} (hs : t i = .block l) : walk (h + 1) t (place b (h + 1) i 0) ≠ .none := by
  unfold walk
  rw [index_place, hs]
  simp

theorem leaf_of_adds {t t' : Table b L 0} (ha : Adds 0 t t') (hw : ∀ p, walk 0 t' p ≠ .none → walk 0 t p ≠ .none) : t' = t := by
  funext i
  rcases ha i with hi | hi
  · exact hi
  · have := hw (place b 0 i 0)
    unfold walk at this
    rw [index_place, hi] at this
    rcases ht : t' i with _ | l
    · exact hi.symm
    · rw [ht] at this
      exact absurd rfl (this (by simp))

theorem eq_of_adds {t t' : Table b L h} (ha : Adds h t t') (hn : NoEmpty h t')
    (hw : ∀ p, walk h t' p ≠ .none → walk h t p ≠ .none) : t' = t := by
  induction h with
  | zero => exact leaf_of_adds ha hw
  | succ h ih =>
    funext i
    rcases ha i with hi | hi | ⟨f, c, c', hi, hi', hc⟩
    · exact hi
    · have hnone : ∀ p, walk (h + 1) t (place b (h + 1) i p) = .none := fun p => walk_of_empty (by rw [index_place]; exact hi)
      rcases ht : t' i with _ | l | ⟨f, c⟩
      · exact hi.symm
      · exact absurd (hnone 0) (hw _ (walk_block ht))
      · obtain ⟨p, hp⟩ := (hn i f c ht).2.exists_walk (hn i f c ht).1
        refine absurd (hnone p) (hw _ ?_)
        rw [walk_of_slot (by rw [index_place]; exact ht), walk_place]
        exact hp
    · rw [hi, hi', ih hc (hn i f c' hi').2 (finds_below hi hi' hw)]

end Compare

section Frames

variable {h p q f : Nat} {i : Fin (2 ^ b)}

theorem frames_zero (h : Nat) : frames h (zero h : Table b L h) = 0 := by
  cases h with
  | zero => rfl
  | succ h => exact Finset.sum_eq_zero fun _ _ => rfl

theorem frames_update (t : Table b L (h + 1)) (i : Fin (2 ^ b)) (v : Slot (Table b L h) L) :
    frames (h + 1) (update t i v) + slotFrames (frames h) (t i) = frames (h + 1) t + slotFrames (frames h) v := by
  have hu : ∀ j, slotFrames (frames h) (update t i v j) =
      update (fun j => slotFrames (frames h) (t j)) i (slotFrames (frames h) v) j := fun j => by
    rcases eq_or_ne j i with rfl | hj
    · rw [update_self, update_self]
    · rw [update_of_ne hj, update_of_ne hj]
  show (∑ j, slotFrames (frames h) (update t i v j)) + _ = (∑ j, slotFrames (frames h) (t j)) + _
  simp only [hu]
  rw [Finset.sum_update_of_mem (Finset.mem_univ i), ← Finset.add_sum_erase _ _ (Finset.mem_univ i),
    Finset.sdiff_singleton_eq_erase]
  abel

theorem slotFrames_le {t t' : Table b L (h + 1)} (hc : ∀ c c' : Table b L h, Adds h c c' → frames h c ≤ frames h c')
    (ha : Adds (h + 1) t t') (i : Fin (2 ^ b)) : slotFrames (frames h) (t i) ≤ slotFrames (frames h) (t' i) := by
  rcases ha i with hi | hi | ⟨f, c, c', hi, hi', hcc⟩
  · rw [hi]
  · rw [hi]
    exact Multiset.zero_le _
  · rw [hi, hi']
    exact Multiset.cons_le_cons f (hc c c' hcc)

theorem Adds.frames_le {t t' : Table b L h} (ha : Adds h t t') : frames h t ≤ frames h t' := by
  induction h with
  | zero => exact le_rfl
  | succ h ih => exact Finset.sum_le_sum fun i _ => slotFrames_le (fun _ _ => ih) ha i

theorem eq_of_adds_card {t t' : Table b L h} (ha : Adds h t t') (hf : (frames h t').card ≤ (frames h t).card)
    (hw : ∀ p, walk h t' p ≠ .none → walk h t p ≠ .none) : t' = t := by
  induction h with
  | zero => exact leaf_of_adds ha hw
  | succ h ih =>
    have heq : frames (h + 1) t = frames (h + 1) t' := Multiset.eq_of_le_of_card_le ha.frames_le hf
    have hslot : ∀ i, slotFrames (frames h) (t i) = slotFrames (frames h) (t' i) := fun i =>
      (Finset.sum_eq_sum_iff_of_le fun j _ => slotFrames_le (fun _ _ hc => hc.frames_le) ha j).1 heq i (Finset.mem_univ i)
    funext i
    have hi := hslot i
    rcases ha i with he | he | ⟨f, c, c', he, he', hc⟩
    · exact he
    · rcases ht : t' i with _ | l | ⟨f, c⟩
      · exact he.symm
      · refine absurd (walk_of_empty ?_) (hw _ (walk_block ht))
        rw [index_place]
        exact he
      · rw [he, ht] at hi
        exact absurd hi.symm (Multiset.cons_ne_zero)
    · rw [he, he'] at hi
      have hcard : frames h c = frames h c' := (Multiset.cons_inj_right f).1 hi
      rw [he, he', ih hc (by rw [hcard]) (finds_below he he' hw)]

end Frames

end Radix
end Lib
