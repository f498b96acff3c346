import KickOS.Lib.HeadList

/-! A list with a head and a tail word and nodes linked both ways: pushed at the tail, popped at the head. -/

namespace Lib

open Linked HeadList
open Function (update update_of_ne update_self)

structure TailList (α : Type*) where
  head : Option α := none
  tail : Option α := none
  next : α → Option α := fun _ => none
  prev : α → Option α := fun _ => none

namespace TailList

variable {α : Type*} [DecidableEq α] {h : TailList α} {l : List α} {a t : α}

def holds (h : TailList α) (n : α) : Bool := (h.prev n).isSome || h.head == some n

def pushBack (h : TailList α) (n : α) : TailList α :=
  match h.tail with
  | none => { head := some n, tail := some n, next := update h.next n none, prev := update h.prev n none }
  | some b =>
    { head := h.head
      tail := some n
      next := update (update h.next n none) b (some n)
      prev := update h.prev n (some b) }

def popFront (h : TailList α) : TailList α × Option α :=
  match h.head with
  | none => (h, none)
  | some n =>
    match h.next n with
    | none => ({ h with head := none, tail := none, next := update h.next n none }, some n)
    | some b =>
      ({ h with head := some b, next := update h.next n none, prev := update h.prev b none }, some n)

/-- The nodes of a list, linked both ways, the tail the last of them; every other node has no previous one. -/
structure Lists (h : TailList α) (l : List α) : Prop where
  seg : Seg h.next h.head l none
  last : h.tail = l.getLast?
  back : Back h.prev none l
  off : ∀ a, a ∉ l → h.prev a = none

omit [DecidableEq α] in
theorem lists_empty : Lists ({} : TailList α) [] := ⟨rfl, rfl, trivial, fun _ _ => rfl⟩

omit [DecidableEq α] in
theorem Lists.nodup (hl : h.Lists l) : l.Nodup := hl.seg.nodup

omit [DecidableEq α] in
theorem Lists.headList (hl : h.Lists l) : (HeadList.mk h.head h.next h.prev).Lists l := ⟨hl.seg, hl.back, hl.off⟩

theorem Lists.holds_iff (hl : h.Lists l) : h.holds a = true ↔ a ∈ l := hl.headList.holds_iff

omit [DecidableEq α] in
theorem back_concat {prev : α → Option α} {p : Option α} :
    Back prev p (l ++ [t]) ↔ Back prev p l ∧ prev t = (l.getLast?.or p) := by
  induction l generalizing p with
  | nil =>
    change (prev t = p ∧ True) ↔ (True ∧ prev t = p)
    rw [and_true, true_and]
  | cons b l ih =>
    change (prev b = p ∧ Back prev (some b) (l ++ [t])) ↔ ((prev b = p ∧ Back prev (some b) l) ∧ _)
    rw [ih, and_assoc, List.getLast?_cons]
    cases l.getLast? <;> rfl

theorem Lists.pushBack (hl : h.Lists l) (ht : t ∉ l) : (h.pushBack t).Lists (l ++ [t]) := by
  have hnd := hl.nodup
  rcases List.eq_nil_or_concat l with rfl | ⟨m, b, rfl⟩
  · have hn : h.tail = none := hl.last
    have hp : h.pushBack t =
        { head := some t, tail := some t, next := update h.next t none, prev := update h.prev t none } := by
      unfold TailList.pushBack
      rw [hn]
    rw [hp]
    refine ⟨⟨rfl, update_self ..⟩, rfl, ⟨update_self .., trivial⟩, fun a ha => ?_⟩
    have hat : a ≠ t := fun he => ha (he ▸ List.mem_singleton_self _)
    exact (update_of_ne hat _ _).trans (hl.off a List.not_mem_nil)
  · rw [List.concat_eq_append] at hl ht hnd ⊢
    have hb : h.tail = some b := hl.last.trans List.getLast?_concat
    have hp : h.pushBack t =
        { head := h.head, tail := some t, next := update (update h.next t none) b (some t),
          prev := update h.prev t (some b) } := by
      unfold TailList.pushBack
      rw [hb]
    have hbt : t ≠ b := fun he => ht (he ▸ List.mem_append_right _ (List.mem_singleton_self _))
    rw [hp]
    refine ⟨?_, List.getLast?_concat.symm, back_concat.2 ⟨?_, ?_⟩, fun a ha => ?_⟩
    · -- the nodes before the old tail keep their links
      obtain ⟨k, h1, h2, h3⟩ := seg_append.1 hl.seg
      refine seg_append.2 ⟨some t, seg_append.2 ⟨k, h1.congr fun c hc => ?_, h2, ?_⟩, rfl, ?_⟩
      · have hcb : c ≠ b := fun he =>
          List.disjoint_of_nodup_append hnd hc (he ▸ List.mem_singleton_self _)
        have hct : c ≠ t := fun he => ht (he ▸ List.mem_append_left _ hc)
        exact (update_of_ne hcb _ _).trans (update_of_ne hct _ _)
      · exact update_self ..
      · exact (update_of_ne hbt _ _).trans (update_self ..)
    · refine hl.back.congr fun c hc => update_of_ne ?_ _ _
      rintro rfl
      exact ht hc
    · rw [List.getLast?_concat]
      exact update_self ..
    · have hat : a ≠ t := fun he => ha (he ▸ List.mem_append_right _ (List.mem_singleton_self _))
      exact (update_of_ne hat _ _).trans (hl.off a fun hm => ha (List.mem_append_left _ hm))

theorem Lists.popFront_nil (hl : h.Lists []) : h.popFront = (h, none) := by
  have hh : h.head = none := hl.seg
  unfold TailList.popFront
  rw [hh]

theorem Lists.popFront_cons (hl : h.Lists (a :: l)) : ∃ h', h.popFront = (h', some a) ∧ h'.Lists l := by
  have hh : h.head = some a := hl.seg.1
  have hnd := List.nodup_cons.1 hl.nodup
  have hnext : Seg (update h.next a none) (h.next a) l none := by
    refine hl.seg.2.congr fun b hb => update_of_ne ?_ _ _
    rintro rfl
    exact hnd.1 hb
  cases l with
  | nil =>
    have hn : h.next a = none := hl.seg.2
    refine ⟨_, by unfold TailList.popFront; rw [hh]; dsimp only; rw [hn], ?_⟩
    refine ⟨rfl, rfl, trivial, fun b _ => ?_⟩
    rcases eq_or_ne b a with rfl | hb
    · exact hl.back.1
    · exact hl.off b fun hm => hb (List.mem_singleton.1 hm)
  | cons c l =>
    have hn : h.next a = some c := hl.seg.2.1
    refine ⟨_, by unfold TailList.popFront; rw [hh]; dsimp only; rw [hn], ?_⟩
    rw [hn] at hnext
    refine ⟨hnext, hl.last.trans ?_, ⟨update_self .., ?_⟩, fun b hb => ?_⟩
    · rw [List.getLast?_cons_cons]
    · refine hl.back.2.2.congr fun b hb => update_of_ne ?_ _ _
      rintro rfl
      exact (List.nodup_cons.1 hnd.2).1 hb
    · have hbc : b ≠ c := fun he => hb (he ▸ List.mem_cons_self ..)
      refine (update_of_ne hbc _ _).trans ?_
      rcases eq_or_ne b a with rfl | hba
      · exact hl.back.1
      · refine hl.off b fun hm => ?_
        rcases List.mem_cons.1 hm with he | hm
        · exact hba he
        · exact hb hm

end TailList

end Lib
