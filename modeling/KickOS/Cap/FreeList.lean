import KickOS.Cap.Table
import KickOS.Lib.Circular
import KickOS.Lib.Count

/-! The free list of a capability table is a FIFO queue of slots.

`FreeList t q` says that the ring headed by the table spells the queue `q`. Seating an entry takes its
slot out of the queue, vacating one appends it, and both leave every other live entry as it was, which is
what `CapTable.live` reads. `Exact` adds the two live counts. -/

namespace KickOS
open Lib CapTable
open Function (update update_comm update_of_ne)

variable {t : CapTable} {q : List Nat} {i j : Nat}

/-! ### Links -/

/-- The links of every slot, as the source decodes them. -/
def CapTable.links (t : CapTable) : Links Nat where
  next i := kcapFreeIndex (kcapFreeNext (t.slots i))
  prev i := kcapFreeIndex (kcapFreePrev (t.slots i))

theorem kcapFreeNext_lt (e : CapEntry) : kcapFreeNext e < 2 ^ 16 := Nat.mod_lt _ (by decide)

theorem kcapFreePrev_lt (e : CapEntry) : kcapFreePrev e < 2 ^ 16 := Nat.mod_lt _ (by decide)

theorem kcapFreeRef_lt (i : Nat) : kcapFreeRef i < 2 ^ 16 := Nat.mod_lt _ (by decide)

theorem kcapFreeNext_link {e : CapEntry} {p n : Nat} (hn : n < 2 ^ 16) : kcapFreeNext (kcapFreeLink e p n) = n := by
  simp only [kcapFreeNext, kcapFreeLink]
  omega

theorem kcapFreePrev_link {e : CapEntry} {p n : Nat} (hp : p < 2 ^ 16) (hn : n < 2 ^ 16) :
    kcapFreePrev (kcapFreeLink e p n) = p := by
  simp only [kcapFreePrev, kcapFreeLink]
  omega

theorem kcapFreeRef_eq (hi : i < kcapWidthMax) : kcapFreeRef i = i + 1 := by
  simp only [kcapFreeRef, kcapWidthMax] at *
  omega

theorem kcapFreeIndex_ref (hi : i < kcapWidthMax) : kcapFreeIndex (kcapFreeRef i) = i := by
  rw [kcapFreeRef_eq hi]
  simp [kcapFreeIndex]

theorem kcapFreeIndex_eq_iff {r : Nat} (hr : r < 2 ^ 16) (hi : i < kcapWidthMax) :
    kcapFreeIndex r = i ↔ r = kcapFreeRef i := by
  rw [kcapFreeRef_eq hi, kcapFreeIndex]
  simp only [kcapWidthMax] at hi
  split <;> omega

theorem kcapFreeRef_ne_none (hi : i < kcapWidthMax) : kcapFreeRef i ≠ kcapFreeNone := by
  rw [kcapFreeRef_eq hi]
  simp [kcapFreeNone]

-- from here on the packing is used through the lemmas above alone
attribute [local irreducible] kcapFreeIndex kcapFreeRef kcapFreeNext kcapFreePrev

@[simp] theorem mapSlot_slots_self {f : CapEntry → CapEntry} : (t.mapSlot i f).slots i = f (t.slots i) := by
  simp [mapSlot, setSlot]

theorem mapSlot_slots_ne {f : CapEntry → CapEntry} (h : j ≠ i) : (t.mapSlot i f).slots j = t.slots j := by
  simp [mapSlot, setSlot, h]

@[simp] theorem mapSlot_width {f : CapEntry → CapEntry} : (t.mapSlot i f).width = t.width := rfl

@[simp] theorem mapSlot_freeHead {f : CapEntry → CapEntry} : (t.mapSlot i f).freeHead = t.freeHead := rfl

@[simp] theorem mapSlot_replyLive {f : CapEntry → CapEntry} : (t.mapSlot i f).replyLive = t.replyLive := rfl

@[simp] theorem mapSlot_irqLive {f : CapEntry → CapEntry} : (t.mapSlot i f).irqLive = t.irqLive := rfl

theorem links_setNext {n : Nat} (hn : n < 2 ^ 16) :
    (t.mapSlot i fun e => kcapFreeSetNext e n).links =
      ⟨update t.links.next i (kcapFreeIndex n), t.links.prev⟩ := by
  simp only [links, Links.mk.injEq]
  constructor
  · funext j
    by_cases hj : j = i
    · subst hj
      simp [kcapFreeSetNext, kcapFreeNext_link hn]
    · rw [mapSlot_slots_ne hj, update_of_ne hj]
  · funext j
    by_cases hj : j = i
    · subst hj
      simp [kcapFreeSetNext, kcapFreePrev_link (kcapFreePrev_lt _) hn]
    · rw [mapSlot_slots_ne hj]

theorem links_setPrev {p : Nat} (hp : p < 2 ^ 16) :
    (t.mapSlot i fun e => kcapFreeSetPrev e p).links =
      ⟨t.links.next, update t.links.prev i (kcapFreeIndex p)⟩ := by
  simp only [links, Links.mk.injEq]
  constructor
  · funext j
    by_cases hj : j = i
    · subst hj
      simp [kcapFreeSetPrev, kcapFreeNext_link (kcapFreeNext_lt _)]
    · rw [mapSlot_slots_ne hj]
  · funext j
    by_cases hj : j = i
    · subst hj
      simp [kcapFreeSetPrev, kcapFreePrev_link hp (kcapFreeNext_lt _)]
    · rw [mapSlot_slots_ne hj, update_of_ne hj]

theorem links_link {p n : Nat} (hp : p < 2 ^ 16) (hn : n < 2 ^ 16) :
    (t.mapSlot i fun e => kcapFreeLink e p n).links =
      ⟨update t.links.next i (kcapFreeIndex n), update t.links.prev i (kcapFreeIndex p)⟩ := by
  simp only [links, Links.mk.injEq]
  constructor <;> funext j <;> by_cases hj : j = i
  · subst hj
    simp [kcapFreeNext_link hn]
  · rw [mapSlot_slots_ne hj, update_of_ne hj]
  · subst hj
    simp [kcapFreePrev_link hp hn]
  · rw [mapSlot_slots_ne hj, update_of_ne hj]

/-! ### The queue -/

/-- The table's ring spells the queue: exactly the empty dynamic slots, each once, in order. -/
structure FreeList (t : CapTable) (q : List Nat) : Prop where
  head : t.freeHead = (q.head?.map kcapFreeRef).getD kcapFreeNone
  ring : t.links.Circ q
  nodup : q.Nodup
  mem : ∀ i, i ∈ q ↔ capFirstDynamic ≤ i ∧ i < t.width ∧ (t.slots i).type = .empty
  width : t.width ≤ kcapWidthMax

def CapTable.live (t : CapTable) (i : Nat) : Option CapEntry :=
  if (t.slots i).type = .empty then none else some (t.slots i)

namespace FreeList

theorem lt_max (h : FreeList t q) (hi : i ∈ q) : i < kcapWidthMax :=
  Nat.lt_of_lt_of_le ((h.mem i).1 hi).2.1 h.width

theorem peek (h : FreeList t q) : capRunPeekFree t.freeHead = q.head? := by
  rw [h.head, capRunPeekFree]
  cases q with
  | nil => simp
  | cons a l =>
    have ha := h.lt_max (List.mem_cons_self ..)
    simp [kcapFreeRef_ne_none ha, kcapFreeIndex_ref ha]

theorem head_eq_none_iff (h : FreeList t q) : t.freeHead = kcapFreeNone ↔ q = [] := by
  rw [h.head]
  cases q with
  | nil => simp
  | cons a l => simpa using kcapFreeRef_ne_none (h.lt_max (List.mem_cons_self ..))

theorem links_mem (h : FreeList t q) (hi : i ∈ q) : t.links.next i ∈ q ∧ t.links.prev i ∈ q := by
  obtain ⟨l₁, l₂, -, rfl, -⟩ := List.exists_erase_eq hi
  have hcut : t.links.Circ (i :: (l₂ ++ l₁)) := by
    simpa using Links.Circ.append_comm (i :: l₂) l₁ h.ring
  have hp := hcut.edge_last.2
  have hn : t.links.next i ∈ i :: (l₂ ++ l₁) := by
    cases hr : l₂ ++ l₁ with
    | nil =>
      rw [hr] at hcut
      rw [(Links.circ_singleton.1 hcut).1]
      exact List.mem_cons_self ..
    | cons a l =>
      rw [hr] at hcut
      have hia : t.links.next i = a := (hcut.edge_get (i := 0) (by simp)).1
      simp [hia]
  have hp' : t.links.prev i ∈ i :: (l₂ ++ l₁) := hp ▸ List.getLast_mem _
  constructor
  · simp only [List.mem_cons, List.mem_append] at hn ⊢
    rcases hn with hn | hn | hn <;> simp [hn]
  · simp only [List.mem_cons, List.mem_append] at hp' ⊢
    rcases hp' with hp' | hp' | hp' <;> simp [hp']

/-- A list survives what touches neither the links of its nodes, nor the head, nor which slots are empty. -/
theorem of_frame {t' : CapTable} (h : FreeList t q) (hh : t'.freeHead = t.freeHead) (hw : t'.width = t.width)
    (hl : ∀ i ∈ q, (t'.slots i).obj = (t.slots i).obj)
    (hm : ∀ i, capFirstDynamic ≤ i → ((t'.slots i).type = .empty ↔ (t.slots i).type = .empty)) :
    FreeList t' q where
  head := hh.trans h.head
  ring := h.ring.congr (fun i hi => by simp [links, kcapFreeNext, hl i hi])
    fun i hi => by simp [links, kcapFreePrev, hl i hi]
  nodup := h.nodup
  mem i := by
    rw [h.mem, hw]
    constructor <;> rintro ⟨h1, h2, h3⟩
    · exact ⟨h1, h2, (hm i h1).2 h3⟩
    · exact ⟨h1, h2, (hm i h1).1 h3⟩
  width := hw ▸ h.width

end FreeList

/-! ### Taking a slot out -/

@[simp] theorem mapSlot_setNext_type {k n : Nat} :
    ((t.mapSlot k fun e => kcapFreeSetNext e n).slots j).type = (t.slots j).type := by
  by_cases hj : j = k
  · subst hj
    simp [kcapFreeSetNext, kcapFreeLink]
  · rw [mapSlot_slots_ne hj]

@[simp] theorem mapSlot_setPrev_type {k p : Nat} :
    ((t.mapSlot k fun e => kcapFreeSetPrev e p).slots j).type = (t.slots j).type := by
  by_cases hj : j = k
  · subst hj
    simp [kcapFreeSetPrev, kcapFreeLink]
  · rw [mapSlot_slots_ne hj]

@[simp] theorem mapSlot_link_type {k p n : Nat} :
    ((t.mapSlot k fun e => kcapFreeLink e p n).slots j).type = (t.slots j).type := by
  by_cases hj : j = k
  · subst hj
    simp [kcapFreeLink]
  · rw [mapSlot_slots_ne hj]

/-- The two writes of an unlink: the neighbours, named by their halves, are linked to each other. -/
def CapTable.joinSlots (t : CapTable) (p n : Nat) : CapTable :=
  (t.mapSlot (kcapFreeIndex p) fun e => kcapFreeSetNext e n).mapSlot (kcapFreeIndex n) fun e => kcapFreeSetPrev e p

theorem joinSlots_links {p n : Nat} (hp : p < 2 ^ 16) (hn : n < 2 ^ 16) :
    (t.joinSlots p n).links = t.links.join (kcapFreeIndex p) (kcapFreeIndex n) := by
  rw [joinSlots, links_setPrev hp, links_setNext hn]
  simp only [Links.join]

@[simp] theorem joinSlots_freeHead {p n : Nat} : (t.joinSlots p n).freeHead = t.freeHead := rfl

theorem joinSlots_slots_ne {p n : Nat} (hp : j ≠ kcapFreeIndex p) (hn : j ≠ kcapFreeIndex n) :
    (t.joinSlots p n).slots j = t.slots j := by
  rw [joinSlots, mapSlot_slots_ne hn, mapSlot_slots_ne hp]

@[simp] theorem joinSlots_type {p n : Nat} : ((t.joinSlots p n).slots j).type = (t.slots j).type := by
  simp [joinSlots]

theorem joinSlots_gen {p n : Nat} : ((t.joinSlots p n).slots j).gen = (t.slots j).gen := by
  have hmap : ∀ (t : CapTable) (k : Nat) (f : CapEntry → CapEntry), (∀ e, (f e).gen = e.gen) →
      ((t.mapSlot k f).slots j).gen = (t.slots j).gen := by
    intro t k f hf
    by_cases hj : j = k
    · subst hj
      simp [hf]
    · rw [mapSlot_slots_ne hj]
  rw [joinSlots, hmap _ _ _ (by intro e; rfl), hmap _ _ _ (by intro e; rfl)]

theorem unlink_cases (t : CapTable) (i : Nat) :
    ∃ head, capRunFreeUnlink t i = { t with freeHead := head } ∨
      capRunFreeUnlink t i =
        { t.joinSlots (kcapFreePrev (t.slots i)) (kcapFreeNext (t.slots i)) with freeHead := head } := by
  simp only [capRunFreeUnlink]
  split
  · exact ⟨t.freeHead, .inl rfl⟩
  split
  · exact ⟨kcapFreeNone, .inl rfl⟩
  split
  · exact ⟨kcapFreeNext (t.slots i), .inr (by simp only [joinSlots])⟩
  · exact ⟨(t.joinSlots (kcapFreePrev (t.slots i)) (kcapFreeNext (t.slots i))).freeHead, .inr (by simp only [joinSlots])⟩

theorem unlink_type : ((capRunFreeUnlink t i).slots j).type = (t.slots j).type := by
  obtain ⟨head, h | h⟩ := unlink_cases t i <;> rw [h]
  exact joinSlots_type

theorem unlink_gen : ((capRunFreeUnlink t i).slots j).gen = (t.slots j).gen := by
  obtain ⟨head, h | h⟩ := unlink_cases t i <;> rw [h]
  exact joinSlots_gen

theorem unlink_width : (capRunFreeUnlink t i).width = t.width := by
  obtain ⟨head, h | h⟩ := unlink_cases t i <;> rw [h]
  rfl

theorem unlink_replyLive : (capRunFreeUnlink t i).replyLive = t.replyLive := by
  obtain ⟨head, h | h⟩ := unlink_cases t i <;> rw [h]
  rfl

theorem unlink_irqLive : (capRunFreeUnlink t i).irqLive = t.irqLive := by
  obtain ⟨head, h | h⟩ := unlink_cases t i <;> rw [h]
  rfl

theorem unlink_slots_ne (hp : j ≠ t.links.prev i) (hn : j ≠ t.links.next i) :
    (capRunFreeUnlink t i).slots j = t.slots j := by
  obtain ⟨head, h | h⟩ := unlink_cases t i <;> rw [h]
  exact joinSlots_slots_ne hp hn

namespace FreeList

/-- Unlinking leaves the ring of the remaining slots, the head moved on when it was the head's slot. -/
theorem unlink_ring (h : FreeList t q) (hi : i ∈ q) :
    (capRunFreeUnlink t i).links.Circ (q.erase i) ∧
      (capRunFreeUnlink t i).freeHead = ((q.erase i).head?.map kcapFreeRef).getD kcapFreeNone := by
  have him := h.lt_max hi
  have hlo : ¬ i < capFirstDynamic := Nat.not_lt.2 ((h.mem i).1 hi).1
  have hself : kcapFreeNext (t.slots i) = kcapFreeRef i ↔ q = [i] := by
    rw [← h.ring.next_self_iff h.nodup hi]
    exact (kcapFreeIndex_eq_iff (kcapFreeNext_lt _) him).symm
  by_cases hone : q = [i]
  · simp only [capRunFreeUnlink, if_neg hlo, if_pos (hself.2 hone)]
    subst hone
    simp
  have hring : (t.joinSlots (kcapFreePrev (t.slots i)) (kcapFreeNext (t.slots i))).links.Circ (q.erase i) := by
    rw [joinSlots_links (kcapFreePrev_lt _) (kcapFreeNext_lt _)]
    exact h.ring.erase_join h.nodup hi hone
  have hun : capRunFreeUnlink t i = if t.freeHead = kcapFreeRef i then
      { t.joinSlots (kcapFreePrev (t.slots i)) (kcapFreeNext (t.slots i)) with freeHead := kcapFreeNext (t.slots i) }
      else t.joinSlots (kcapFreePrev (t.slots i)) (kcapFreeNext (t.slots i)) := by
    simp only [capRunFreeUnlink, if_neg hlo, if_neg (mt hself.1 hone), joinSlots, mapSlot_freeHead]
    rfl
  rw [hun]
  cases q with
  | nil => simp at hi
  | cons a l =>
    have hah : t.freeHead = kcapFreeRef a := by simp [h.head]
    have ham := h.lt_max (List.mem_cons_self ..)
    by_cases hai : a = i
    · subst hai
      rw [if_pos hah]
      refine ⟨hring, ?_⟩
      cases l with
      | nil => simp at hone
      | cons b l =>
        have hb : t.links.next a = b := (h.ring.edge_get (i := 0) (by simp)).1
        have hbm := h.lt_max (i := b) (by simp)
        simpa using (kcapFreeIndex_eq_iff (kcapFreeNext_lt _) hbm).1 hb
    · have hne : ¬ t.freeHead = kcapFreeRef i := by
        rw [hah]
        intro he
        exact hai (by rw [← kcapFreeIndex_ref ham, he, kcapFreeIndex_ref him])
      rw [if_neg hne]
      refine ⟨hring, ?_⟩
      rw [joinSlots_freeHead, hah, List.erase_cons_tail (by simpa using hai)]
      simp

end FreeList

/-! ### Seating an entry -/

/-- The entry a seat writes: the slot keeps its generation and nothing else of its last occupant. -/
def seatedEntry (t : CapTable) (i obj objGen : Nat) (type : CapType) (rights : Rights) (badge : Nat) : CapEntry where
  obj := obj
  objGen := objGen
  type := type
  rights := rights
  gen := (t.slots i).gen
  badge := badge

variable {obj objGen badge : Nat} {type : CapType} {rights : Rights}

theorem installAt_eq (hlo : capFirstDynamic ≤ i) (hw : i < t.width) :
    capInstallAt t i obj objGen type rights badge =
      { (capRunFreeUnlink t i).setSlot i (seatedEntry t i obj objGen type rights badge) with
        irqLive := t.irqLive + if type = .irq then 1 else 0 } := by
  have hr : ¬ (i < capFirstDynamic ∨ t.width ≤ i) := by omega
  have he : capReplySeqSeat { (capRunFreeUnlink t i).slots i with obj, objGen, type, rights, badge } 0 =
      seatedEntry t i obj objGen type rights badge := by
    simp [capReplySeqSeat, seatedEntry, unlink_gen]
  simp only [capInstallAt, if_neg hr, mapSlot]
  rw [he]
  split
  · simp [setSlot, unlink_irqLive]
  · simp [setSlot, unlink_irqLive]

namespace FreeList

theorem not_mem_of_live (h : FreeList t q) (hj : (t.slots j).type ≠ .empty) : j ∉ q :=
  fun hm => hj ((h.mem j).1 hm).2.2

theorem installAt (h : FreeList t q) (hi : i ∈ q) (hty : type ≠ .empty) :
    FreeList (capInstallAt t i obj objGen type rights badge) (q.erase i) := by
  obtain ⟨hlo, hw, hempty⟩ := (h.mem i).1 hi
  obtain ⟨hring, hhead⟩ := h.unlink_ring hi
  rw [installAt_eq hlo hw]
  refine ⟨hhead, hring.congr ?_ ?_, h.nodup.erase i, fun j => ?_, ?_⟩
  · intro j hj
    have hji : j ≠ i := ((h.nodup.mem_erase_iff).1 hj).1
    simp [links, setSlot, hji]
  · intro j hj
    have hji : j ≠ i := ((h.nodup.mem_erase_iff).1 hj).1
    simp [links, setSlot, hji]
  · rw [h.nodup.mem_erase_iff, h.mem]
    by_cases hji : j = i
    · subst hji
      simp [setSlot, seatedEntry, hty]
    · simp [setSlot, hji, unlink_type, unlink_width]
  · simpa [setSlot, unlink_width] using h.width

theorem installAt_live (h : FreeList t q) (hi : i ∈ q) (hty : type ≠ .empty) :
    (capInstallAt t i obj objGen type rights badge).live =
      update t.live i (some (seatedEntry t i obj objGen type rights badge)) := by
  obtain ⟨hlo, hw, hempty⟩ := (h.mem i).1 hi
  rw [installAt_eq hlo hw]
  funext j
  by_cases hji : j = i
  · subst hji
    simp [live, setSlot, seatedEntry, hty]
  · rw [update_of_ne hji]
    simp only [live, setSlot, update_of_ne hji, unlink_type]
    split
    · rfl
    · rename_i hlive
      have hq := h.not_mem_of_live hlive
      obtain ⟨hn, hp⟩ := h.links_mem hi
      rw [unlink_slots_ne (by rintro rfl; exact hq hp) (by rintro rfl; exact hq hn)]

end FreeList

/-! ### Returning a slot -/

namespace FreeList

theorem release_ring (hh : t.freeHead = (q.head?.map kcapFreeRef).getD kcapFreeNone) (hr : t.links.Circ q)
    (hnd : q.Nodup) (hlt : ∀ j ∈ q, j < kcapWidthMax) (hi : i ∉ q) (hlo : capFirstDynamic ≤ i)
    (him : i < kcapWidthMax) :
    (capRunFreeRelease t i).links.Circ (q ++ [i]) ∧
      (capRunFreeRelease t i).freeHead = ((q ++ [i]).head?.map kcapFreeRef).getD kcapFreeNone := by
  simp only [capRunFreeRelease, if_neg (Nat.not_lt.2 hlo)]
  cases q with
  | nil =>
    have hnone : t.freeHead = kcapFreeNone := by simpa using hh
    rw [if_pos hnone]
    refine ⟨?_, by simp⟩
    show (t.mapSlot i fun e => kcapFreeLink e (kcapFreeRef i) (kcapFreeRef i)).links.Circ [i]
    rw [Links.circ_singleton, links_link (kcapFreeRef_lt _) (kcapFreeRef_lt _)]
    simp [Links.Edge, kcapFreeIndex_ref him]
  | cons a l =>
    have ham := hlt a (List.mem_cons_self ..)
    have hah : t.freeHead = kcapFreeRef a := by simpa using hh
    have hia : i ≠ a := by rintro rfl; simp at hi
    rw [hah, if_neg (kcapFreeRef_ne_none ham), kcapFreeIndex_ref ham]
    refine ⟨?_, by simpa using hh⟩
    have hlinks : (((t.mapSlot i fun e => kcapFreeLink e (kcapFreePrev (t.slots a)) (kcapFreeRef a)).mapSlot
        (kcapFreeIndex (kcapFreePrev (t.slots a))) fun e => kcapFreeSetNext e (kcapFreeRef i)).mapSlot a fun e =>
        kcapFreeSetPrev e (kcapFreeRef i)).links = (t.links.join i a).join (t.links.prev a) i := by
      rw [links_setPrev (kcapFreeRef_lt _), links_setNext (kcapFreeRef_lt _),
        links_link (kcapFreePrev_lt _) (kcapFreeRef_lt _), kcapFreeIndex_ref ham, kcapFreeIndex_ref him]
      simp only [Links.join, Links.mk.injEq]
      exact ⟨rfl, update_comm hia _ _ _⟩
    rw [hlinks]
    exact hr.snoc_join hnd hi

end FreeList

theorem release_slots_ne (hji : j ≠ i) (hh : t.freeHead = kcapFreeNone ∨ (j ≠ kcapFreeIndex t.freeHead ∧
    j ≠ t.links.prev (kcapFreeIndex t.freeHead))) : (capRunFreeRelease t i).slots j = t.slots j := by
  simp only [capRunFreeRelease]
  split
  · exact mapSlot_slots_ne hji
  split
  · simp only [mapSlot_slots_ne hji]
  · rename_i hne
    obtain ⟨h1, h2⟩ := hh.resolve_left hne
    exact (mapSlot_slots_ne h1).trans ((mapSlot_slots_ne h2).trans (mapSlot_slots_ne hji))

theorem release_type : ((capRunFreeRelease t i).slots j).type = (t.slots j).type := by
  simp only [capRunFreeRelease]
  split
  · exact mapSlot_link_type
  split
  · exact mapSlot_link_type
  · exact mapSlot_setPrev_type.trans (mapSlot_setNext_type.trans mapSlot_link_type)

theorem release_width : (capRunFreeRelease t i).width = t.width := by
  simp only [capRunFreeRelease]
  split
  · rfl
  split <;> rfl

theorem release_replyLive : (capRunFreeRelease t i).replyLive = t.replyLive := by
  simp only [capRunFreeRelease]
  split
  · rfl
  split <;> rfl

theorem release_irqLive : (capRunFreeRelease t i).irqLive = t.irqLive := by
  simp only [capRunFreeRelease]
  split
  · rfl
  split <;> rfl

/-- A table whose slot's entry has been emptied, with the live counts following its type; the slot is not in
the free list yet. -/
def CapTable.emptied (t : CapTable) (i : Nat) : CapTable where
  slots := update t.slots i
    { t.slots i with gen := ((t.slots i).gen + 1) % 2 ^ 16, type := .empty, rights := {} }
  width := t.width
  freeHead := t.freeHead
  replyLive := t.replyLive - if (t.slots i).type = .reply then 1 else 0
  irqLive := t.irqLive - if (t.slots i).type = .irq then 1 else 0
  dir := t.dir

theorem emptied_slots_ne (h : j ≠ i) : (t.emptied i).slots j = t.slots j := by
  simp [emptied, h]

theorem emptied_type : ((t.emptied i).slots j).type = if j = i then .empty else (t.slots j).type := by
  by_cases hj : j = i
  · subst hj
    simp [emptied]
  · rw [if_neg hj, emptied_slots_ne hj]

theorem vacate_eq : capSlotVacate t i = capRunFreeRelease (t.emptied i) i := by
  simp only [capSlotVacate, emptied, mapSlot, setSlot]
  cases (t.slots i).type <;> rfl

theorem vacate_type : ((capSlotVacate t i).slots j).type = if j = i then .empty else (t.slots j).type := by
  rw [vacate_eq, release_type, emptied_type]

theorem vacate_width : (capSlotVacate t i).width = t.width := by
  rw [vacate_eq, release_width]
  rfl

namespace FreeList

theorem vacate (h : FreeList t q) (hw : i < t.width) (hlive : (t.slots i).type ≠ .empty) :
    FreeList (capSlotVacate t i) (if i < capFirstDynamic then q else q ++ [i]) := by
  have hi := h.not_mem_of_live hlive
  have him : i < kcapWidthMax := Nat.lt_of_lt_of_le hw h.width
  have hne : ∀ j ∈ q, j ≠ i := by rintro j hj rfl; exact hi hj
  have huring : (t.emptied i).links.Circ q := h.ring.congr
    (fun j hj => by simp [links, emptied_slots_ne (hne j hj)]) fun j hj => by simp [links, emptied_slots_ne (hne j hj)]
  have hmem : ∀ j, capFirstDynamic ≤ j ∧ j < (capSlotVacate t i).width ∧ ((capSlotVacate t i).slots j).type = .empty ↔
      (j ∈ q ∨ (j = i ∧ capFirstDynamic ≤ i)) := by
    intro j
    rw [vacate_type, vacate_width, h.mem]
    by_cases hji : j = i
    · subst hji
      simp [hlive, hw]
    · simp [hji]
  have hwidth : (capSlotVacate t i).width ≤ kcapWidthMax := vacate_width (t := t) ▸ h.width
  by_cases hlo : i < capFirstDynamic
  · rw [if_pos hlo]
    refine ⟨?_, ?_, h.nodup, fun j => ?_, hwidth⟩
    · rw [vacate_eq, capRunFreeRelease, if_pos hlo]
      exact h.head
    · rw [vacate_eq]
      refine huring.congr (fun j hj => ?_) fun j hj => ?_
      all_goals
        simp only [links, capRunFreeRelease, if_pos hlo, mapSlot_slots_ne (hne j hj)]
    · rw [hmem]
      constructor
      · exact .inl
      · rintro (hj | ⟨-, hj⟩)
        · exact hj
        · omega
  · rw [if_neg hlo]
    have hrel := release_ring (t := t.emptied i) (i := i) h.head huring h.nodup (fun j hj => h.lt_max hj) hi
      (Nat.not_lt.1 hlo) him
    rw [← vacate_eq] at hrel
    refine ⟨hrel.2, hrel.1, ?_, fun j => ?_, hwidth⟩
    · simpa using h.nodup.concat hi
    · rw [hmem, List.mem_append, List.mem_singleton]
      constructor
      · rintro (hj | hj)
        · exact .inl hj
        · exact .inr ⟨hj, Nat.not_lt.1 hlo⟩
      · rintro (hj | ⟨hj, -⟩)
        · exact .inl hj
        · exact .inr hj

theorem vacate_live (h : FreeList t q) (hw : i < t.width) (hlive : (t.slots i).type ≠ .empty) :
    (capSlotVacate t i).live = update t.live i none := by
  funext j
  by_cases hji : j = i
  · subst hji
    simp [live, vacate_type]
  · rw [update_of_ne hji]
    simp only [live, vacate_type, if_neg hji]
    split
    · rfl
    · rename_i hjlive
      have hq := h.not_mem_of_live hjlive
      have hslots : ∀ k ∈ q, k ≠ i := by rintro k hk rfl; exact h.not_mem_of_live hlive hk
      rw [vacate_eq, release_slots_ne hji ?_, emptied_slots_ne hji]
      · -- the head and the tail of the ring are empty slots
        show t.freeHead = _ ∨ _ ≠ kcapFreeIndex t.freeHead ∧ _ ≠ (t.emptied i).links.prev (kcapFreeIndex t.freeHead)
        cases q with
        | nil => exact .inl (by simpa using h.head)
        | cons a l =>
          have ham := h.lt_max (List.mem_cons_self ..)
          have hah : t.freeHead = kcapFreeRef a := by simp [h.head]
          have hprev := (h.links_mem (List.mem_cons_self (a := a) (l := l))).2
          have hai := hslots a (List.mem_cons_self ..)
          rw [hah, kcapFreeIndex_ref ham]
          refine .inr ⟨by rintro rfl; exact hq (List.mem_cons_self ..), ?_⟩
          simp only [links, emptied_slots_ne hai]
          rintro rfl
          exact hq hprev

end FreeList

/-! ### Threading a fresh run -/

theorem buildFrom_slots (last : Nat) : ∀ (fuel i : Nat) (t : CapTable) (j : Nat),
    (capRunFreeBuildFrom last fuel i t).slots j =
      if i ≤ j ∧ j < i + fuel then
        kcapFreeLink (t.slots j) (kcapFreeRef (if j = capFirstDynamic then last else j - 1))
          (kcapFreeRef (if j = last then capFirstDynamic else j + 1))
      else t.slots j
  | 0, i, t, j => by simp [capRunFreeBuildFrom]
  | fuel + 1, i, t, j => by
    rw [capRunFreeBuildFrom, buildFrom_slots last fuel (i + 1)]
    by_cases hj : j = i
    · subst hj
      have hout : ¬ (j + 1 ≤ j ∧ j < j + 1 + fuel) := by omega
      have hin : j ≤ j ∧ j < j + (fuel + 1) := by omega
      rw [if_neg hout, mapSlot_slots_self, if_pos hin]
    · rw [mapSlot_slots_ne hj]
      by_cases hin : i ≤ j ∧ j < i + (fuel + 1)
      · have hin' : i + 1 ≤ j ∧ j < i + 1 + fuel := by omega
        rw [if_pos hin', if_pos hin]
      · have hout' : ¬ (i + 1 ≤ j ∧ j < i + 1 + fuel) := by omega
        rw [if_neg hout', if_neg hin]

theorem buildFrom_live (last : Nat) : ∀ (fuel i : Nat) (t : CapTable),
    (capRunFreeBuildFrom last fuel i t).replyLive = t.replyLive ∧ (capRunFreeBuildFrom last fuel i t).irqLive = t.irqLive
  | 0, _, _ => ⟨rfl, rfl⟩
  | fuel + 1, i, t => by
    rw [capRunFreeBuildFrom]
    exact buildFrom_live last fuel (i + 1) _

/-- The order a fresh run hands its slots out in: ascending. -/
def freshQueue (width : Nat) : List Nat := List.range' capFirstDynamic (width - capFirstDynamic)

theorem freeList_build (hlo : capFirstDynamic ≤ i) (hi : i ≤ kcapWidthMax) (dir : List Nat) :
    FreeList { capRunFreeBuild {} i with width := i, dir } (freshQueue i) := by
  have hmem : ∀ j, j ∈ freshQueue i ↔ capFirstDynamic ≤ j ∧ j < i := by
    intro j
    simp only [freshQueue, List.mem_range'_1]
    omega
  by_cases hone : i ≤ capFirstDynamic
  · have hi1 : i - capFirstDynamic = 0 := by omega
    have hq : freshQueue i = [] := by simp [freshQueue, hi1]
    refine ⟨?_, by simp [hq], by simp [hq], fun j => ?_, hi⟩
    · simp [capRunFreeBuild, if_pos hone, hq]
    · rw [hmem]
      simp only [capRunFreeBuild, if_pos hone, and_true]
  obtain ⟨n, rfl⟩ : ∃ n, i = n + 2 := ⟨i - 2, by simp only [capFirstDynamic] at hone; omega⟩
  have hq : freshQueue (n + 2) = 1 :: List.range' 2 n := by
    simp [freshQueue, capFirstDynamic, List.range'_succ]
  have hlast : (1 :: List.range' 2 n).getLast (List.cons_ne_nil _ _) = n + 1 := by
    rw [List.getLast_eq_getElem]
    cases n with
    | zero => rfl
    | succ n => simp [List.getElem_range']; omega
  have hslots : ∀ j, capFirstDynamic ≤ j → j < n + 2 → (capRunFreeBuild {} (n + 2)).slots j =
      kcapFreeLink {} (kcapFreeRef (if j = capFirstDynamic then n + 1 else j - 1))
        (kcapFreeRef (if j = n + 1 then capFirstDynamic else j + 1)) := by
    intro j h1 h2
    simp only [capRunFreeBuild, if_neg hone]
    rw [buildFrom_slots, if_pos (by omega)]
    rfl
  have hedge : ∀ a b, capFirstDynamic ≤ a → a < n + 2 → capFirstDynamic ≤ b → b < n + 2 →
      b = (if a = n + 1 then capFirstDynamic else a + 1) → a = (if b = capFirstDynamic then n + 1 else b - 1) →
      Links.Edge (CapTable.links { capRunFreeBuild {} (n + 2) with width := n + 2, dir }) a b := by
    intro a b ha1 ha2 hb1 hb2 hab hba
    simp only [Links.Edge, links, hslots a ha1 ha2, hslots b hb1 hb2]
    rw [kcapFreeNext_link (kcapFreeRef_lt _), kcapFreePrev_link (kcapFreeRef_lt _) (kcapFreeRef_lt _), ← hab, ← hba]
    exact ⟨kcapFreeIndex_ref (by omega), kcapFreeIndex_ref (by omega)⟩
  refine ⟨?_, ?_, List.nodup_range', fun j => ?_, hi⟩
  · simp [capRunFreeBuild, hq, capFirstDynamic]
  · rw [hq]
    refine Links.circ_of_edges (fun k hk => ?_) ?_
    · have hget : ∀ m, (hm : m < (1 :: List.range' 2 n).length) → (1 :: List.range' 2 n)[m] = m + 1 := by
        intro m hm
        cases m with
        | zero => rfl
        | succ m => simp [List.getElem_range']; omega
      simp only [List.length_cons, List.length_range'] at hk
      rw [hget k (by simp; omega), hget (k + 1) (by simp; omega)]
      refine hedge _ _ (by simp [capFirstDynamic]) (by omega) (by simp [capFirstDynamic]) (by omega) ?_ ?_
      · rw [if_neg (by omega)]
      · rw [if_neg (by simp [capFirstDynamic])]
        omega
    · rw [hlast]
      exact hedge _ _ (by simp [capFirstDynamic]) (by omega) (by simp [capFirstDynamic]) (by omega)
        (by simp [capFirstDynamic]) (by simp [capFirstDynamic])
  · rw [hmem]
    constructor
    · rintro ⟨h1, h2⟩
      refine ⟨h1, h2, ?_⟩
      rw [hslots j h1 h2]
      rfl
    · rintro ⟨h1, h2, -⟩
      exact ⟨h1, h2⟩

end KickOS
