import KickOS.Lib.Linked

/-! A list with one head word and nodes linked both ways: a node without a previous one is the head or on no list. -/

namespace Lib

open Linked
open Function (update update_of_ne update_self)

structure HeadList (α : Type*) where
  head : Option α := none
  next : α → Option α := fun _ => none
  prev : α → Option α := fun _ => none

namespace HeadList

variable {α : Type*} [DecidableEq α] {h : HeadList α} {l : List α} {a t : α}

def holds (h : HeadList α) (n : α) : Bool := (h.prev n).isSome || h.head == some n

def push (h : HeadList α) (n : α) : HeadList α where
  head := some n
  next := update h.next n h.head
  prev :=
    match h.head with
    | none => update h.prev n none
    | some b => update (update h.prev n none) b (some n)

def pop (h : HeadList α) : HeadList α × Option α :=
  match h.head with
  | none => (h, none)
  | some n =>
    ({ head := h.next n
       next := update h.next n none
       prev :=
         match h.next n with
         | none => h.prev
         | some b => update h.prev b none }, some n)

def Back (prev : α → Option α) : Option α → List α → Prop
  | _, [] => True
  | p, b :: l => prev b = p ∧ Back prev (some b) l

/-- The nodes of a list, linked both ways; every other node has no previous one. -/
structure Lists (h : HeadList α) (l : List α) : Prop where
  seg : Seg h.next h.head l none
  back : Back h.prev none l
  off : ∀ a, a ∉ l → h.prev a = none

omit [DecidableEq α] in
theorem Back.congr {prev prev' : α → Option α} {p : Option α} (hb : Back prev p l) (he : ∀ a ∈ l, prev' a = prev a) :
    Back prev' p l := by
  induction l generalizing p with
  | nil => trivial
  | cons b l ih =>
    obtain ⟨h1, h2⟩ := hb
    exact ⟨(he b (List.mem_cons_self ..)).trans h1, ih h2 fun a ha => he a (List.mem_cons_of_mem _ ha)⟩

omit [DecidableEq α] in
theorem Back.isSome {prev : α → Option α} {b : α} (hb : Back prev (some b) l) (ha : a ∈ l) : (prev a).isSome = true := by
  induction l generalizing b with
  | nil => cases ha
  | cons c l ih =>
    obtain ⟨h1, h2⟩ := hb
    rcases List.mem_cons.1 ha with rfl | ha
    · rw [h1]
      rfl
    · exact ih h2 ha

omit [DecidableEq α] in
theorem lists_empty : Lists ({} : HeadList α) [] := ⟨rfl, trivial, fun _ _ => rfl⟩

omit [DecidableEq α] in
theorem Lists.nodup (hl : h.Lists l) : l.Nodup := hl.seg.nodup

theorem Lists.holds_iff (hl : h.Lists l) : h.holds a = true ↔ a ∈ l := by
  unfold HeadList.holds
  rw [Bool.or_eq_true, beq_iff_eq]
  constructor
  · rintro (hp | hh)
    · by_contra hn
      rw [hl.off a hn] at hp
      cases hp
    · have hseg := hl.seg
      cases l with
      | nil =>
        rw [hh] at hseg
        cases hseg
      | cons b l =>
        rw [hh] at hseg
        obtain rfl := Option.some.inj hseg.1
        exact List.mem_cons_self ..
  · intro ha
    cases l with
    | nil => cases ha
    | cons b l =>
      rcases List.mem_cons.1 ha with rfl | ha
      · exact .inr hl.seg.1
      · exact .inl (hl.back.2.isSome ha)

theorem Lists.push (hl : h.Lists l) (ht : t ∉ l) : (h.push t).Lists (t :: l) := by
  have hseg : Seg (h.push t).next (h.push t).head (t :: l) none := by
    refine ⟨rfl, ?_⟩
    show Seg (update h.next t h.head) (update h.next t h.head t) l none
    rw [update_self]
    refine hl.seg.congr fun a ha => update_of_ne ?_ _ _
    rintro rfl
    exact ht ha
  cases l with
  | nil =>
    have hh : h.head = none := hl.seg
    have hp : (h.push t).prev = update h.prev t none := by
      unfold HeadList.push
      rw [hh]
    refine ⟨hseg, ⟨?_, trivial⟩, fun a ha => ?_⟩
    · rw [hp, update_self]
    · have hat : a ≠ t := fun he => ha (he ▸ List.mem_cons_self ..)
      rw [hp, update_of_ne hat]
      exact hl.off a List.not_mem_nil
  | cons b l =>
    have hh : h.head = some b := hl.seg.1
    have hp : (h.push t).prev = update (update h.prev t none) b (some t) := by
      unfold HeadList.push
      rw [hh]
    have hbt : b ≠ t := fun he => ht (he ▸ List.mem_cons_self ..)
    have hnd := hl.nodup
    refine ⟨hseg, ⟨?_, ?_, ?_⟩, fun a ha => ?_⟩
    · rw [hp, update_of_ne hbt.symm, update_self]
    · rw [hp, update_self]
    · refine hl.back.2.congr fun a ha => ?_
      have hab : a ≠ b := fun he => (List.nodup_cons.1 hnd).1 (he ▸ ha)
      have hat : a ≠ t := fun he => ht (he ▸ List.mem_cons_of_mem _ ha)
      rw [hp, update_of_ne hab, update_of_ne hat]
    · have hat : a ≠ t := fun he => ha (he ▸ List.mem_cons_self ..)
      have hab : a ≠ b := fun he => ha (he ▸ List.mem_cons_of_mem _ (List.mem_cons_self ..))
      rw [hp, update_of_ne hab, update_of_ne hat]
      exact hl.off a fun hm => ha (List.mem_cons_of_mem _ hm)

theorem Lists.pop_nil (hl : h.Lists []) : h.pop = (h, none) := by
  have hh : h.head = none := hl.seg
  unfold HeadList.pop
  rw [hh]

theorem Lists.pop_cons (hl : h.Lists (a :: l)) : ∃ h', h.pop = (h', some a) ∧ h'.Lists l := by
  have hh : h.head = some a := hl.seg.1
  have hnd := List.nodup_cons.1 hl.nodup
  refine ⟨(h.pop).1, by unfold HeadList.pop; rw [hh], ?_⟩
  have hnext : Seg (update h.next a none) (h.next a) l none := by
    refine hl.seg.2.congr fun b hb => update_of_ne ?_ _ _
    rintro rfl
    exact hnd.1 hb
  cases l with
  | nil =>
    have hn : h.next a = none := hl.seg.2
    have hp : (h.pop).1 = { head := none, next := update h.next a none, prev := h.prev } := by
      unfold HeadList.pop
      rw [hh]
      dsimp only
      rw [hn]
    rw [hp]
    refine ⟨rfl, trivial, fun b _ => ?_⟩
    rcases eq_or_ne b a with rfl | hb
    · exact hl.back.1
    · exact hl.off b fun hm => hb (List.mem_singleton.1 hm)
  | cons c l =>
    have hn : h.next a = some c := hl.seg.2.1
    have hp : (h.pop).1 = { head := some c, next := update h.next a none, prev := update h.prev c none } := by
      unfold HeadList.pop
      rw [hh]
      dsimp only
      rw [hn]
    rw [hn] at hnext
    rw [hp]
    refine ⟨hnext, ⟨update_self .., ?_⟩, fun b hb => ?_⟩
    · refine hl.back.2.2.congr fun b hb => update_of_ne ?_ _ _
      rintro rfl
      exact (List.nodup_cons.1 hnd.2).1 hb
    · have hbc : b ≠ c := fun he => hb (he ▸ List.mem_cons_self ..)
      show update h.prev c none b = none
      rw [update_of_ne hbc]
      rcases eq_or_ne b a with rfl | hba
      · exact hl.back.1
      · refine hl.off b fun hm => ?_
        rcases List.mem_cons.1 hm with he | hm
        · exact hba he
        · exact hb hm

end HeadList

end Lib
