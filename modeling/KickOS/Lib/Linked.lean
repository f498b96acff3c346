import Mathlib.Tactic

/-! Singly linked lists in a heap of links.

Every root and every node holds a link. A walk holds the place it reads, not the node it found there, so it can splice where it
stops. -/

namespace Lib.Linked
open Function (update update_of_ne update_self)

variable {ρ α : Type*}

/-- The links of the roots and of the nodes. -/
structure Heap (ρ α : Type*) where
  root : ρ → Option α
  next : α → Option α

/-- A place that holds a link. -/
inductive Link (ρ α : Type*)
  | root (r : ρ)
  | next (a : α)

/-- The nodes of a list lead from the first link to the last. -/
def Seg (next : α → Option α) : Option α → List α → Option α → Prop
  | p, [], q => p = q
  | p, a :: l, q => p = some a ∧ Seg next (next a) l q

/-- The nodes a walk of at most `n` steps visits. -/
def nodes (next : α → Option α) : Nat → Option α → List α
  | 0, _ => []
  | _ + 1, none => []
  | n + 1, some a => a :: nodes next n (next a)

/-- The place behind the nodes of a list that starts at a root. -/
def place (r : ρ) (l : List α) : Link ρ α :=
  match l.getLast? with
  | none => .root r
  | some a => .next a

namespace Heap

def get (h : Heap ρ α) : Link ρ α → Option α
  | .root r => h.root r
  | .next a => h.next a

def put [DecidableEq ρ] [DecidableEq α] (h : Heap ρ α) (p : Link ρ α) (v : Option α) : Heap ρ α :=
  match p with
  | .root r => { h with root := update h.root r v }
  | .next a => { h with next := update h.next a v }

/-- The first place from `p` on whose node is not passed. -/
def walk (h : Heap ρ α) (pass : α → Bool) : Nat → Link ρ α → Link ρ α
  | 0, p => p
  | n + 1, p =>
    match h.get p with
    | none => p
    | some a => if pass a then h.walk pass n (.next a) else p

def Lists (h : Heap ρ α) (r : ρ) (l : List α) : Prop := Seg h.next (h.root r) l none

end Heap

section Segments

variable {next next' : α → Option α} {p q : Option α} {l m : List α} {a : α} {r r' : ρ}

@[simp] theorem place_nil : place r ([] : List α) = .root r := rfl

@[simp] theorem place_append_singleton : place r (l ++ [a]) = .next a := by
  rw [place, List.getLast?_append, List.getLast?_singleton]
  rfl

theorem place_cases (r : ρ) (l : List α) : place r l = .root r ∧ l = [] ∨ ∃ m a, l = m ++ [a] ∧ place r l = .next a := by
  rcases List.eq_nil_or_concat l with rfl | ⟨m, a, rfl⟩
  · exact .inl ⟨rfl, rfl⟩
  · exact .inr ⟨m, a, List.concat_eq_append, by rw [List.concat_eq_append]; exact place_append_singleton⟩

theorem seg_append : Seg next p (l ++ m) q ↔ ∃ k, Seg next p l k ∧ Seg next k m q := by
  induction l generalizing p with
  | nil => exact ⟨fun h => ⟨p, rfl, h⟩, fun ⟨k, h1, h2⟩ => h1 ▸ h2⟩
  | cons a l ih =>
    rw [List.cons_append]
    constructor
    · intro ⟨h1, h2⟩
      obtain ⟨k, h3, h4⟩ := ih.1 h2
      exact ⟨k, ⟨h1, h3⟩, h4⟩
    · intro ⟨k, ⟨h1, h2⟩, h3⟩
      exact ⟨h1, ih.2 ⟨k, h2, h3⟩⟩

theorem Seg.congr (h : Seg next p l q) (hn : ∀ a ∈ l, next' a = next a) : Seg next' p l q := by
  induction l generalizing p with
  | nil => exact h
  | cons a l ih =>
    obtain ⟨h1, h2⟩ := h
    refine ⟨h1, ?_⟩
    rw [hn a (List.mem_cons_self ..)]
    exact ih h2 fun b hb => hn b (List.mem_cons_of_mem _ hb)

theorem Seg.unique (hl : Seg next p l none) (hm : Seg next p m none) : l = m := by
  induction l generalizing p m with
  | nil =>
    cases m with
    | nil => rfl
    | cons b m =>
      rw [show p = none from hl] at hm
      cases hm.1
  | cons a l ih =>
    obtain ⟨rfl, h2⟩ := hl
    cases m with
    | nil => cases hm
    | cons b m =>
      obtain ⟨h3, h4⟩ := hm
      cases h3
      rw [ih h2 h4]

theorem Seg.nodes_eq {n : Nat} (h : Seg next p l none) (hn : l.length ≤ n) : nodes next n p = l := by
  induction l generalizing p n with
  | nil =>
    obtain rfl : p = none := h
    cases n <;> rfl
  | cons a l ih =>
    obtain ⟨rfl, h2⟩ := h
    cases n with
    | zero => cases hn
    | succ n => exact congrArg (a :: ·) (ih h2 (Nat.le_of_succ_le_succ hn))

theorem Seg.nodup (h : Seg next p l none) : l.Nodup := by
  induction l generalizing p with
  | nil => exact List.nodup_nil
  | cons a l ih =>
    refine List.nodup_cons.2 ⟨fun ha => ?_, ih h.2⟩
    obtain ⟨x, y, rfl⟩ := List.append_of_mem ha
    obtain ⟨k, -, hy⟩ := seg_append.1 h.2
    have heq : a :: (x ++ a :: y) = a :: y := by
      refine Seg.unique h ?_
      rw [h.1, ← hy.1]
      exact hy
    have hlen := congrArg List.length heq
    simp only [List.length_cons, List.length_append] at hlen
    omega

end Segments

namespace Heap

variable {h : Heap ρ α} {l m k : List α} {a t : α} {r r' : ρ} {v : Option α} {p : Link ρ α}
  {pass : α → Bool} {n : Nat}

theorem Lists.nodup (hl : h.Lists r l) : l.Nodup := Seg.nodup hl

theorem get_place {q : Option α} (hs : Seg h.next (h.root r) l q) : h.get (place r l) = q := by
  rcases place_cases r l with ⟨hp, rfl⟩ | ⟨m, a, rfl, hp⟩
  · exact hs
  · obtain ⟨k, -, -, hk⟩ := seg_append.1 hs
    rw [hp]
    exact hk

theorem lists_append : h.Lists r (l ++ m) ↔
    Seg h.next (h.root r) l (h.get (place r l)) ∧ Seg h.next (h.get (place r l)) m none := by
  constructor
  · intro hs
    obtain ⟨k, h1, h2⟩ := seg_append.1 hs
    rw [get_place h1]
    exact ⟨h1, h2⟩
  · exact fun ⟨h1, h2⟩ => seg_append.2 ⟨_, h1, h2⟩

theorem Lists.get_end (hl : h.Lists r l) : h.get (place r l) = none := get_place hl

theorem Lists.get_cons (hl : h.Lists r (l ++ a :: m)) : h.get (place r l) = some a := (lists_append.1 hl).2.1

theorem Lists.walk (hl : h.Lists r (l ++ m)) (hn : m.length ≤ n) :
    h.walk pass n (place r l) = place r (l ++ m.takeWhile pass) := by
  induction m generalizing l n with
  | nil =>
    have hg : h.get (place r l) = none := (List.append_nil l ▸ hl).get_end
    rw [List.takeWhile_nil, List.append_nil]
    cases n with
    | zero => rfl
    | succ n => simp only [Heap.walk, hg]
  | cons b m ih =>
    obtain ⟨n, rfl⟩ : ∃ j, n = j + 1 := Nat.exists_eq_succ_of_ne_zero (by rw [List.length_cons] at hn; omega)
    have hg := hl.get_cons
    rw [Heap.walk, hg, List.takeWhile_cons]
    dsimp only
    split_ifs with hb
    · have hl' : h.Lists r (l ++ [b] ++ m) := by rwa [List.append_assoc]
      have hw := ih hl' (n := n) (by rw [List.length_cons] at hn; omega)
      rw [place_append_singleton, List.append_assoc] at hw
      exact hw
    · rw [List.append_nil]

theorem place_ne_next (hr : a ∉ l) : place r l ≠ .next a := by
  rcases place_cases r l with ⟨hp, -⟩ | ⟨m, b, rfl, hp⟩
  · rw [hp]
    rintro ⟨⟩
  · rw [hp]
    rintro ⟨⟩
    exact hr (by simp)

theorem place_ne_root (hr : r ≠ r') : place r l ≠ .root r' := by
  rcases place_cases r l with ⟨hp, -⟩ | ⟨m, b, -, hp⟩
  · rw [hp]
    rintro ⟨⟩
    exact hr rfl
  · rw [hp]
    rintro ⟨⟩

variable [DecidableEq ρ] [DecidableEq α]

theorem Lists.put (hl : h.Lists r (l ++ m)) (hk : Seg (h.put (place r l) v).next v k none) :
    (h.put (place r l) v).Lists r (l ++ k) := by
  have hnd := hl.nodup
  rcases place_cases r l with ⟨hp, rfl⟩ | ⟨j, a, rfl, hp⟩
  · rw [hp] at hk ⊢
    show Seg _ (update h.root r v r) k none
    rw [update_self]
    exact hk
  · rw [hp] at hk ⊢
    obtain ⟨b, h1, h2, h3⟩ := seg_append.1 (lists_append.1 hl).1
    rw [List.append_assoc]
    refine seg_append.2 ⟨b, Seg.congr h1 fun c hc => update_of_ne ?_ _ _, h2, ?_⟩
    · rintro rfl
      rw [List.append_assoc] at hnd
      exact List.disjoint_of_nodup_append hnd hc (List.mem_cons_self ..)
    · show Seg _ (update h.next a v a) k none
      rw [update_self]
      exact hk

/-- A list is as it was where the place put belongs to no node of it and not to its root. -/
theorem Lists.frame (hl : h.Lists r' m) (hr : p ≠ .root r') (ha : ∀ a ∈ m, p ≠ .next a) : (h.put p v).Lists r' m := by
  cases p with
  | root r =>
    have hne : r' ≠ r := fun he => hr (by rw [he])
    show Seg h.next (update h.root r v r') m none
    rw [update_of_ne hne]
    exact hl
  | next a =>
    refine Seg.congr hl fun b hb => update_of_ne ?_ _ _
    rintro rfl
    exact ha b hb rfl

theorem Lists.other (hl : h.Lists r' m) (hr : r ≠ r') (hd : ∀ a ∈ m, a ∉ l) : (h.put (place r l) v).Lists r' m :=
  hl.frame (place_ne_root hr) fun a ha => place_ne_next (hd a ha)

theorem Lists.stray (hl : h.Lists r' m) (ha : a ∉ m) : (h.put (.next a) v).Lists r' m :=
  hl.frame (by rintro ⟨⟩) fun b hb he => ha (by cases he; exact hb)

theorem next_put_place (ha : a ∉ l) : (h.put (place r l) v).next a = h.next a := by
  have hp := place_ne_next (r := r) ha
  generalize place r l = q at hp ⊢
  cases q with
  | root r => rfl
  | next b =>
    refine update_of_ne ?_ _ _
    rintro rfl
    exact hp rfl

@[simp] theorem next_put_self : (h.put (.next a) v).next a = v := update_self ..

theorem next_put_of_ne {b : α} (hb : b ≠ a) : (h.put (.next a) v).next b = h.next b := update_of_ne hb _ _

theorem Lists.insert (hl : h.Lists r (l ++ m)) (ht : t ∉ l ++ m) :
    ((h.put (.next t) (h.get (place r l))).put (place r l) (some t)).Lists r (l ++ t :: m) := by
  have h1 : (h.put (.next t) (h.get (place r l))).Lists r (l ++ m) := hl.stray ht
  have hnd := hl.nodup
  refine h1.put ⟨rfl, ?_⟩
  rw [next_put_place fun h => ht (List.mem_append_left _ h), next_put_self]
  refine Seg.congr (lists_append.1 hl).2 fun a ha => ?_
  have hat : a ≠ t := fun he => ht (he ▸ List.mem_append_right _ ha)
  rw [next_put_place fun h => List.disjoint_of_nodup_append hnd h ha, next_put_of_ne hat]

theorem Lists.cut (hl : h.Lists r (l ++ a :: m)) : (h.put (place r l) (h.next a)).Lists r (l ++ m) := by
  have hnd := hl.nodup
  refine hl.put (Seg.congr (lists_append.1 hl).2.2 fun b hb => ?_)
  exact next_put_place fun h => List.disjoint_of_nodup_append hnd h (List.mem_cons_of_mem _ hb)

theorem Lists.concat (hl : h.Lists r l) (ha : a ∉ l) (hn : h.next a = none) :
    (h.put (place r l) (some a)).Lists r (l ++ [a]) := by
  refine Lists.put (m := []) (by rwa [List.append_nil]) ⟨rfl, ?_⟩
  rw [next_put_place ha]
  exact hn

end Heap

end Lib.Linked
