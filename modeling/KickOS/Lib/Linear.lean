import Mathlib.Tactic

/-! Linearizability.

A history has the calls and the returns of operations in their order in time. Operations are told apart by an identity.
A linearization puts them one after the other, each between its call and its return. -/

namespace Lib
open scoped List

/-- An event of a history. -/
inductive Event (I Op Res : Type) where
  | call (i : I) (op : Op)
  | ret (i : I) (r : Res)

variable {I Op Res S : Type}

/-- The operations of `lin`, one after the other from `s` on, give their results and end in `s'`. -/
def Legal (seq : Op → S → S × Res) : S → List (I × Op × Res) → S → Prop
  | s, [], s' => s = s'
  | s, e :: lin, s' => (seq e.2.1 s).2 = e.2.2 ∧ Legal seq (seq e.2.1 s).1 lin s'

theorem Legal.concat {seq : Op → S → S × Res} {lin : List (I × Op × Res)} {s s' : S} (h : Legal seq s lin s') (i : I) (op : Op) :
    Legal seq s (lin ++ [(i, op, (seq op s').2)]) (seq op s').1 := by
  induction lin generalizing s with
  | nil =>
    cases h
    exact ⟨rfl, rfl⟩
  | cons e lin ih => exact ⟨h.1, ih h.2⟩

theorem Legal.mem {seq : Op → S → S × Res} {lin : List (I × Op × Res)} {s s' : S} (h : Legal seq s lin s') {i : I}
    {op : Op} {r : Res} (hm : (i, op, r) ∈ lin) : ∃ pre post s₀, lin = pre ++ (i, op, r) :: post ∧
    Legal seq s pre s₀ ∧ (seq op s₀).2 = r := by
  induction lin generalizing s with
  | nil => cases hm
  | cons e lin ih =>
    rcases List.mem_cons.1 hm with rfl | hm
    · exact ⟨[], lin, s, rfl, rfl, h.1⟩
    · obtain ⟨pre, post, s₀, rfl, hpre, hr⟩ := ih h.2 hm
      exact ⟨e :: pre, post, s₀, rfl, ⟨h.1, hpre⟩, hr⟩

/-- The operation `lin` has under the identity. -/
def ids (lin : List (I × Op × Res)) : List I := lin.map Prod.fst

/-- `lin` linearizes the history from `init` to `s`: it has every operation that returned, with its result, and some of
those that have not, and an operation that returned in front of the call of another stands in front of it. -/
structure Linearizes (seq : Op → S → S × Res) (init : S) (hist : List (Event I Op Res)) (lin : List (I × Op × Res))
    (s : S) : Prop where
  legal : Legal seq init lin s
  nodup : (ids lin).Nodup
  called : ∀ i op r, (i, op, r) ∈ lin → .call i op ∈ hist
  returned : ∀ i r, .ret i r ∈ hist → ∃ op, (i, op, r) ∈ lin
  order : ∀ a r b op, [.ret a r, .call b op] <+ hist → b ∈ ids lin → [a, b] <+ ids lin

theorem linearizes_nil (seq : Op → S → S × Res) (s : S) : Linearizes seq s ([] : List (Event I Op Res)) [] s where
  legal := rfl
  nodup := .nil
  called _ _ _ h := absurd h List.not_mem_nil
  returned _ _ h := absurd h List.not_mem_nil
  order _ _ _ _ h _ := absurd h (by simp)

theorem pair_sublist_concat {α : Type} {x y z : α} {l : List α} (h : [x, y] <+ l ++ [z]) : [x, y] <+ l ∨ y = z := by
  obtain ⟨l₁, l₂, heq, h1, h2⟩ := List.sublist_append_iff.1 h
  cases l₂ with
  | nil =>
    rw [List.append_nil] at heq
    exact .inl (heq ▸ h1)
  | cons w l₂ =>
    have hlast := congrArg List.getLast? heq
    obtain ⟨rfl, rfl⟩ : w = z ∧ l₂ = [] := by
      cases h2 with
      | cons _ h => exact absurd h (by simp)
      | cons_cons _ h => exact ⟨rfl, List.sublist_nil.1 h⟩
    refine .inr ?_
    simpa using hlast

section Rules

variable {seq : Op → S → S × Res} {init s : S} {hist : List (Event I Op Res)} {lin : List (I × Op × Res)} {i : I}
    {op : Op} {r : Res}

theorem mem_ids (h : (i, op, r) ∈ lin) : i ∈ ids lin := List.mem_map.2 ⟨_, h, rfl⟩

theorem Linearizes.call (h : Linearizes seq init hist lin s) (hnew : ∀ op, .call i op ∉ hist) (op : Op) :
    Linearizes seq init (hist ++ [.call i op]) lin s where
  legal := h.legal
  nodup := h.nodup
  called j op' r hm := List.mem_append_left _ (h.called j op' r hm)
  returned j r hm := by
    rcases List.mem_append.1 hm with hm | hm
    · exact h.returned j r hm
    · exact absurd (List.mem_singleton.1 hm) (by simp)
  order a r b op' hsub hb := by
    rcases pair_sublist_concat hsub with hsub | heq
    · exact h.order a r b op' hsub hb
    · -- the operation of this call is in no linearization yet
      cases heq
      obtain ⟨e, he, rfl⟩ := List.mem_map.1 hb
      exact absurd (h.called _ _ _ he) (hnew _)

theorem Linearizes.ret (h : Linearizes seq init hist lin s) (hm : (i, op, r) ∈ lin) :
    Linearizes seq init (hist ++ [.ret i r]) lin s where
  legal := h.legal
  nodup := h.nodup
  called j op' r' hj := List.mem_append_left _ (h.called j op' r' hj)
  returned j r' hj := by
    rcases List.mem_append.1 hj with hj | hj
    · exact h.returned j r' hj
    · cases List.mem_singleton.1 hj
      exact ⟨op, hm⟩
  order a r' b op' hsub hb := by
    rcases pair_sublist_concat hsub with hsub | heq
    · exact h.order a r' b op' hsub hb
    · cases heq

theorem Linearizes.take (h : Linearizes seq init hist lin s) (hc : .call i op ∈ hist) (hnew : i ∉ ids lin) :
    Linearizes seq init hist (lin ++ [(i, op, (seq op s).2)]) (seq op s).1 := by
  have hids : ids (lin ++ [(i, op, (seq op s).2)]) = ids lin ++ [i] := List.map_append
  refine ⟨h.legal.concat i op, ?_, fun j op' r' hj => ?_, fun j r' hj => ?_, fun a r' b op' hsub hb => ?_⟩
  · rw [hids]
    exact List.nodup_append.2 ⟨h.nodup, List.nodup_singleton _, fun a ha b hb hab => hnew (List.mem_singleton.1 hb ▸ hab ▸ ha)⟩
  · rcases List.mem_append.1 hj with hj | hj
    · exact h.called j op' r' hj
    · cases List.mem_singleton.1 hj
      exact hc
  · obtain ⟨op', hj⟩ := h.returned j r' hj
    exact ⟨op', List.mem_append_left _ hj⟩
  · rw [hids] at hb ⊢
    rcases List.mem_append.1 hb with hb | hb
    · exact (h.order a r' b op' hsub hb).trans (List.sublist_append_left ..)
    · -- what has returned is in its place already
      cases List.mem_singleton.1 hb
      obtain ⟨op'', ha⟩ := h.returned a r' (hsub.subset List.mem_cons_self)
      exact List.Sublist.append (List.singleton_sublist.2 (mem_ids ha)) (List.Sublist.refl [i])

end Rules

end Lib
