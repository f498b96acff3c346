import Mathlib.Tactic

/-! Circular doubly linked lists over a memory of links.

A node is a value of an arbitrary type and the links are two functions on nodes. `Circ` says that the
nodes of a list, taken in order, are linked into one ring. Removing a node from anywhere and adding
one at the tail are the two writes of an intrusive ring; each lemma says what the ring is afterwards. -/

namespace Lib
open Function (update update_of_ne)

/-- The two link fields of every node. -/
structure Links (α : Type*) where
  next : α → α
  prev : α → α

namespace Links

variable {α : Type*} {L M : Links α} {a b x : α} {l q : List α}

/-- `b` follows `a`, and both fields say so. -/
def Edge (L : Links α) (a b : α) : Prop := L.next a = b ∧ L.prev b = a

/-- The nodes of the list, in order, form one ring. -/
def Circ (L : Links α) : List α → Prop
  | [] => True
  | a :: l => List.IsChain L.Edge (a :: l ++ [a])

@[simp] theorem circ_nil : L.Circ [] := trivial

theorem circ_cons : L.Circ (a :: l) ↔ List.IsChain L.Edge (a :: l ++ [a]) := Iff.rfl

theorem circ_singleton : L.Circ [a] ↔ L.Edge a a := by
  simp [Circ]

theorem Circ.rotate_one (h : L.Circ (a :: l)) : L.Circ (l ++ [a]) := by
  cases l with
  | nil => exact h
  | cons b l =>
    rw [circ_cons, List.cons_append, List.cons_append, List.isChain_cons_cons] at h
    obtain ⟨hab, hl⟩ := h
    have hcat : List.IsChain L.Edge ((b :: l ++ [a]) ++ [b]) := by
      refine List.isChain_append.2 ⟨hl, List.isChain_singleton b, ?_⟩
      intro x hx y hy
      simp only [List.getLast?_append, List.getLast?_singleton, Option.some_or, Option.mem_def,
        Option.some.injEq] at hx
      simp only [List.head?_cons, Option.mem_def, Option.some.injEq] at hy
      subst hx hy
      exact hab
    exact hcat

theorem Circ.append_comm (q : List α) : ∀ l, L.Circ (l ++ q) → L.Circ (q ++ l)
  | [], h => by simpa using h
  | a :: l, h => by
    have h' := (Circ.rotate_one (l := l ++ q) h)
    rw [List.append_assoc] at h'
    simpa [List.append_assoc] using Circ.append_comm (q ++ [a]) l h'

theorem Circ.edge_get (h : L.Circ q) {i : Nat} (hi : i + 1 < q.length) : L.Edge q[i] q[i + 1] := by
  cases q with
  | nil => simp at hi
  | cons a l =>
    have hc := List.isChain_iff_getElem.1 (circ_cons.1 h) i (by simp at hi ⊢; omega)
    rwa [List.getElem_append_left (by omega), List.getElem_append_left hi] at hc

theorem Circ.edge_last (h : L.Circ (a :: l)) : L.Edge ((a :: l).getLast (List.cons_ne_nil a l)) a := by
  have hc := (List.isChain_append.1 (circ_cons.1 h)).2.2
  exact hc _ (by rw [List.getLast?_eq_some_getLast (by simp)]; rfl) a (by simp)

theorem circ_of_edges (hin : ∀ i, (hi : i + 1 < (a :: l).length) → L.Edge (a :: l)[i] (a :: l)[i + 1])
    (hlast : L.Edge ((a :: l).getLast (List.cons_ne_nil a l)) a) : L.Circ (a :: l) := by
  refine circ_cons.2 (List.isChain_append.2 ⟨List.isChain_iff_getElem.2 hin, List.isChain_singleton a, ?_⟩)
  intro x hx y hy
  rw [List.getLast?_eq_some_getLast (by simp)] at hx
  simp only [List.head?_cons, Option.mem_def, Option.some.injEq] at hx hy
  subst hx hy
  exact hlast

theorem Circ.congr (h : L.Circ q) (hn : ∀ x ∈ q, M.next x = L.next x) (hp : ∀ x ∈ q, M.prev x = L.prev x) :
    M.Circ q := by
  cases q with
  | nil => trivial
  | cons a l =>
    refine List.IsChain.imp_of_mem_imp (fun x y hx hy hxy => ?_) (circ_cons.1 h)
    have hx' : x ∈ a :: l := by simpa [or_comm] using hx
    have hy' : y ∈ a :: l := by simpa [or_comm] using hy
    exact ⟨(hn x hx').trans hxy.1, (hp y hy').trans hxy.2⟩

/-! ### The two writes of a ring -/

variable [DecidableEq α]

/-- Link `a` to `b`, in both fields. -/
def join (L : Links α) (a b : α) : Links α where
  next := update L.next a b
  prev := update L.prev b a

@[simp] theorem join_next : (L.join a b).next = update L.next a b := rfl

@[simp] theorem join_prev : (L.join a b).prev = update L.prev b a := rfl

theorem edge_join_self : (L.join a b).Edge a b := by
  simp [Edge, join]

/-- Joining the last node of a run of nodes to its first closes the run, whatever stood between them. -/
theorem circ_join (hnd : (a :: l).Nodup)
    (hin : ∀ i, (hi : i + 1 < (a :: l).length) → L.Edge (a :: l)[i] (a :: l)[i + 1]) :
    (L.join ((a :: l).getLast (List.cons_ne_nil a l)) a).Circ (a :: l) := by
  refine circ_of_edges (fun i hi => ?_) edge_join_self
  have hlast : (a :: l)[i] ≠ (a :: l).getLast (List.cons_ne_nil a l) := by
    rw [List.getLast_eq_getElem]
    intro he
    have := (List.Nodup.getElem_inj_iff hnd).1 he
    simp at this hi
    omega
  have hfirst : (a :: l)[i + 1] ≠ a := by
    intro he
    have : (a :: l)[i + 1] = (a :: l)[0] := he
    have := (List.Nodup.getElem_inj_iff hnd).1 this
    omega
  obtain ⟨h1, h2⟩ := hin i hi
  exact ⟨by rw [join_next, update_of_ne hlast, h1], by rw [join_prev, update_of_ne hfirst, h2]⟩

theorem Circ.tail_join (h : L.Circ (x :: a :: l)) (hnd : (x :: a :: l).Nodup) :
    (L.join (L.prev x) (L.next x)).Circ (a :: l) := by
  have hprev : L.prev x = (a :: l).getLast (List.cons_ne_nil a l) := by
    have := h.edge_last.2
    rwa [List.getLast_cons (by simp)] at this
  have hnext : L.next x = a := (h.edge_get (i := 0) (by simp)).1
  rw [hprev, hnext]
  exact circ_join (List.nodup_cons.1 hnd).2 (fun i hi => h.edge_get (i := i + 1) (by simp at hi ⊢; omega))

theorem Circ.erase_join (h : L.Circ q) (hnd : q.Nodup) (hx : x ∈ q) (hne : q ≠ [x]) :
    (L.join (L.prev x) (L.next x)).Circ (q.erase x) := by
  obtain ⟨l₁, l₂, hx₁, rfl, -⟩ := List.exists_erase_eq hx
  rw [List.erase_append_right _ hx₁, List.erase_cons_head]
  -- cut the ring at the node, take it out as the first, then cut it back where it was
  have hcut : L.Circ (x :: (l₂ ++ l₁)) := by
    simpa using Circ.append_comm (x :: l₂) l₁ h
  have hnd' : (x :: (l₂ ++ l₁)).Nodup := by
    have hcomm : (x :: l₂ ++ l₁).Nodup := List.nodup_append_comm.1 hnd
    simpa using hcomm
  apply Circ.append_comm l₁ l₂
  cases hr : l₂ ++ l₁ with
  | nil =>
    rw [List.append_eq_nil_iff] at hr
    simp [hr.1, hr.2] at hne
  | cons a l =>
    rw [hr] at hcut hnd'
    exact hcut.tail_join hnd'

/-- A lone node is linked to itself on both sides, and only a lone node is its own successor. -/
theorem Circ.next_self_iff (h : L.Circ q) (hnd : q.Nodup) (hx : x ∈ q) : L.next x = x ↔ q = [x] := by
  constructor
  · intro hself
    obtain ⟨l₁, l₂, hx₁, rfl, -⟩ := List.exists_erase_eq hx
    have hcut : L.Circ (x :: (l₂ ++ l₁)) := by
      simpa using Circ.append_comm (x :: l₂) l₁ h
    have hnd' : (x :: (l₂ ++ l₁)).Nodup := by
      have hcomm : (x :: l₂ ++ l₁).Nodup := List.nodup_append_comm.1 hnd
      simpa using hcomm
    cases hr : l₂ ++ l₁ with
    | nil =>
      rw [List.append_eq_nil_iff] at hr
      simp [hr.1, hr.2]
    | cons a l =>
      rw [hr] at hcut hnd'
      have hxa : L.next x = a := (hcut.edge_get (i := 0) (by simp)).1
      have hax : a = x := hxa.symm.trans hself
      simp [hax] at hnd'
  · rintro rfl
    exact (circ_singleton.1 h).1

theorem Circ.snoc_join (h : L.Circ (a :: l)) (hnd : (a :: l).Nodup) (hx : x ∉ a :: l) :
    ((L.join x a).join (L.prev a) x).Circ (a :: l ++ [x]) := by
  have hprev : L.prev a = (a :: l).getLast (List.cons_ne_nil a l) := h.edge_last.2
  have hax : a ≠ x := by rintro rfl; simp at hx
  have hlx : (a :: l).getLast (List.cons_ne_nil a l) ≠ x := fun he => hx (he ▸ List.getLast_mem _)
  rw [List.cons_append]
  refine circ_of_edges (fun i hi => ?_) ?_
  · simp only [← List.cons_append] at hi ⊢
    rcases Nat.lt_or_ge (i + 1) (a :: l).length with hil | hil
    · -- inside the old ring no field of the edge is written
      rw [List.getElem_append_left (by omega), List.getElem_append_left hil]
      obtain ⟨h1, h2⟩ := h.edge_get hil
      have hix : (a :: l)[i] ≠ x := fun he => hx (he ▸ List.getElem_mem _)
      have hiy : (a :: l)[i + 1] ≠ x := fun he => hx (he ▸ List.getElem_mem _)
      have hil' : (a :: l)[i] ≠ L.prev a := by
        rw [hprev, List.getLast_eq_getElem]
        intro he
        have := (List.Nodup.getElem_inj_iff hnd).1 he
        simp at this hil
        omega
      have hia : (a :: l)[i + 1] ≠ a := by
        intro he
        have he' : (a :: l)[i + 1] = (a :: l)[0] := he
        have := (List.Nodup.getElem_inj_iff hnd).1 he'
        omega
      refine ⟨?_, ?_⟩
      · rw [join_next, join_next, update_of_ne hil', update_of_ne hix, h1]
      · rw [join_prev, join_prev, update_of_ne hiy, update_of_ne hia, h2]
    · -- the edge from the old last node to the new one
      have hi' : i = (a :: l).length - 1 := by simp at hi hil ⊢; omega
      have hlast : (a :: l ++ [x])[i] = L.prev a := by
        rw [List.getElem_append_left (by simp [hi']), hprev, List.getLast_eq_getElem]
        simp [hi']
      have hnew : (a :: l ++ [x])[i + 1] = x := by
        rw [List.getElem_append_right hil]
        simp
      rw [hlast, hnew]
      exact edge_join_self
  · have hlast : (a :: (l ++ [x])).getLast (List.cons_ne_nil a _) = x := by simp
    rw [hlast]
    refine ⟨?_, ?_⟩
    · simp [join, update_of_ne (hprev ▸ hlx).symm]
    · simp [join, update_of_ne hax]

end Links

end Lib
