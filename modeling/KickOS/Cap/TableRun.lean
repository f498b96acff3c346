import KickOS.Cap.FreeList

/-! Runs of the operations on one capability table.

`Exact` is the free list together with the two live counts. It holds of a freshly attached table and every
operation keeps it, moving the queue the way a FIFO queue moves; so over a whole run the ring spells what is
left of the queue of vacated slots, and the reply test answers for the mint that follows it. -/

namespace KickOS
open Lib CapTable

variable {t u : CapTable} {q : List Nat} {i obj objGen badge : Nat} {type : CapType} {rights : Rights}

/-- How many entries of the table have a type. -/
def CapTable.typeCount (t : CapTable) (type : CapType) : Nat :=
  Lib.count t.width fun i => (t.slots i).type = type

/-- The free list and both live counts are exact. -/
structure Exact (t : CapTable) (q : List Nat) : Prop extends FreeList t q where
  reply : t.replyLive = t.typeCount .reply
  irq : t.irqLive = t.typeCount .irq

theorem typeCount_write {new : CapType} (hw : u.width = t.width) (hi : i < t.width)
    (hty : ∀ j, (u.slots j).type = if j = i then new else (t.slots j).type) (ty : CapType) :
    u.typeCount ty + (if (t.slots i).type = ty then 1 else 0) = t.typeCount ty + if new = ty then 1 else 0 := by
  have hfun : (fun j => decide ((u.slots j).type = ty)) =
      fun j => decide (Function.update (fun j => (t.slots j).type) i new j = ty) := by
    funext j
    rw [hty, Function.update_apply]
  have := count_update (fun j => (t.slots j).type) new (fun x => decide (x = ty)) hi
  simp only [typeCount, hw, hfun]
  simpa [Bool.toNat, Bool.cond_decide] using this

theorem installAt_type (hlo : capFirstDynamic ≤ i) (hw : i < t.width) (j : Nat) :
    ((capInstallAt t i obj objGen type rights badge).slots j).type = if j = i then type else (t.slots j).type := by
  rw [installAt_eq hlo hw]
  by_cases hj : j = i
  · subst hj
    simp [setSlot, seatedEntry]
  · simp [setSlot, hj, unlink_type]

theorem installAt_width (hlo : capFirstDynamic ≤ i) (hw : i < t.width) :
    (capInstallAt t i obj objGen type rights badge).width = t.width := by
  rw [installAt_eq hlo hw]
  exact unlink_width

theorem installAt_replyLive (hlo : capFirstDynamic ≤ i) (hw : i < t.width) :
    (capInstallAt t i obj objGen type rights badge).replyLive = t.replyLive := by
  rw [installAt_eq hlo hw]
  exact unlink_replyLive

theorem installAt_irqLive (hlo : capFirstDynamic ≤ i) (hw : i < t.width) :
    (capInstallAt t i obj objGen type rights badge).irqLive = t.irqLive + if type = .irq then 1 else 0 := by
  rw [installAt_eq hlo hw]

namespace Exact

theorem installAt (h : Exact t q) (hi : i ∈ q) (hty : type ≠ .empty) (hrep : type ≠ .reply) :
    Exact (capInstallAt t i obj objGen type rights badge) (q.erase i) := by
  obtain ⟨hlo, hw, hempty⟩ := (h.mem i).1 hi
  have hcount : ∀ ty, (capInstallAt t i obj objGen type rights badge).typeCount ty +
      (if (t.slots i).type = ty then 1 else 0) = t.typeCount ty + if type = ty then 1 else 0 :=
    typeCount_write (installAt_width hlo hw) hw (installAt_type hlo hw)
  refine ⟨h.toFreeList.installAt hi hty, ?_, ?_⟩
  · have hc := hcount .reply
    rw [installAt_replyLive hlo hw, h.reply]
    simpa [hempty, hrep] using hc.symm
  · have hc := hcount .irq
    rw [installAt_irqLive hlo hw, h.irq]
    simpa [hempty] using hc.symm

theorem vacate (h : Exact t q) (hw : i < t.width) (hlive : (t.slots i).type ≠ .empty) :
    Exact (capSlotVacate t i) (if i < capFirstDynamic then q else q ++ [i]) := by
  have hcount := typeCount_write (u := capSlotVacate t i) vacate_width hw (fun j => vacate_type)
  refine ⟨h.toFreeList.vacate hw hlive, ?_, ?_⟩
  · have hc := hcount .reply
    rw [vacate_eq, release_replyLive, ← vacate_eq]
    show t.replyLive - _ = _
    rw [h.reply]
    simp only [reduceCtorEq, if_false, Nat.add_zero] at hc
    omega
  · have hc := hcount .irq
    rw [vacate_eq, release_irqLive, ← vacate_eq]
    show t.irqLive - _ = _
    rw [h.irq]
    simp only [reduceCtorEq, if_false, Nat.add_zero] at hc
    omega

theorem install_eq (h : Exact t q) :
    capInstall t obj objGen type rights = match q.head? with
      | none => (t, .error .emfile)
      | some i => (capInstallAt t i obj objGen type rights kcapBadgeNone, .ok (capHandle (t.slots i).gen i)) := by
  rw [capInstall, h.peek]
  cases q with
  | nil => rfl
  | cons i l =>
    obtain ⟨hlo, hw, -⟩ := (h.mem i).1 (List.mem_cons_self ..)
    have hgen : ((capInstallAt t i obj objGen type rights kcapBadgeNone).slots i).gen = (t.slots i).gen := by
      rw [installAt_eq hlo hw]
      simp [setSlot, seatedEntry]
    simp only [List.head?_cons, hgen]

end Exact

/-- The table after a mint in slot `i`: the caller's handle, and its call sequence packed beside the type. -/
def CapTable.mintReply (t : CapTable) (i handle threadGen callSeq : Nat) : CapTable :=
  let u := capInstallAt t i handle threadGen .reply {} kcapBadgeNone
  { u.mapSlot i fun e => capReplySeqSeat e (callSeq % 256) with replyLive := u.replyLive + 1 }

variable {handle threadGen callSeq : Nat}

theorem mintReply_type (hlo : capFirstDynamic ≤ i) (hw : i < t.width) (j : Nat) :
    ((t.mintReply i handle threadGen callSeq).slots j).type = if j = i then .reply else (t.slots j).type := by
  have hseat : ((capInstallAt t i handle threadGen .reply {} kcapBadgeNone).slots j).type =
      if j = i then .reply else (t.slots j).type := installAt_type hlo hw j
  rw [← hseat]
  by_cases hj : j = i
  · subst hj
    simp [CapTable.mintReply, capReplySeqSeat]
  · simp [CapTable.mintReply, mapSlot, setSlot, hj]

theorem FreeList.mintReply (h : FreeList t q) (hi : i ∈ q) :
    FreeList (t.mintReply i handle threadGen callSeq) (q.erase i) := by
  obtain ⟨hlo, hw, -⟩ := (h.mem i).1 hi
  have hfree : FreeList (capInstallAt t i handle threadGen .reply {} kcapBadgeNone) (q.erase i) :=
    h.installAt hi (by decide)
  refine hfree.of_frame rfl rfl (fun j hj => ?_) fun j _ => ?_
  · have hji : j ≠ i := ((h.nodup.mem_erase_iff).1 hj).1
    simp [CapTable.mintReply, mapSlot, setSlot, hji]
  · rw [mintReply_type hlo hw, installAt_type hlo hw]

theorem FreeList.mintReply_live {j : Nat} (h : FreeList t q) (hi : i ∈ q) (hj : j ≠ i) :
    (t.mintReply i handle threadGen callSeq).live j = t.live j := by
  have hlive : (capInstallAt t i handle threadGen .reply {} kcapBadgeNone).live j = t.live j := by
    rw [h.installAt_live hi (by decide), Function.update_of_ne hj]
  rw [← hlive]
  simp [CapTable.live, CapTable.mintReply, mapSlot, setSlot, hj]

theorem installReply_table (t : CapTable) (handle threadGen callSeq : Nat) :
    (capInstallReply t handle threadGen callSeq).1 = t ∨ ∃ i, capRunPeekFree t.freeHead = some i ∧
      (capInstallReply t handle threadGen callSeq).1 = t.mintReply i handle threadGen callSeq := by
  unfold capInstallReply
  split_ifs
  · exact .inl rfl
  · split
    · exact .inl rfl
    · rename_i i hi
      exact .inr ⟨i, hi, rfl⟩

namespace Exact

theorem mintReply (h : Exact t q) (hi : i ∈ q) : Exact (t.mintReply i handle threadGen callSeq) (q.erase i) := by
  obtain ⟨hlo, hw, hempty⟩ := (h.mem i).1 hi
  have hwidth : (t.mintReply i handle threadGen callSeq).width = t.width := installAt_width hlo hw
  have hcount := typeCount_write hwidth hw (mintReply_type hlo hw)
  refine ⟨h.toFreeList.mintReply hi, ?_, ?_⟩
  · have hc := hcount .reply
    show (capInstallAt t i handle threadGen .reply {} kcapBadgeNone).replyLive + 1 = _
    rw [installAt_replyLive hlo hw, h.reply]
    simpa [hempty] using hc.symm
  · have hc := hcount .irq
    show (capInstallAt t i handle threadGen .reply {} kcapBadgeNone).irqLive = _
    rw [installAt_irqLive hlo hw, h.irq]
    simpa [hempty] using hc.symm

theorem installReply_eq (h : Exact t q) :
    capInstallReply t handle threadGen callSeq =
      if capReplyMax ≤ t.replyLive then (t, .error .emfile)
      else match q.head? with
        | none => (t, .error .emfile)
        | some i => (t.mintReply i handle threadGen callSeq, .ok (capHandle (t.slots i).gen i)) := by
  rw [capInstallReply, h.peek]
  split
  · rfl
  cases q with
  | nil => rfl
  | cons i l =>
    obtain ⟨hlo, hw, -⟩ := (h.mem i).1 (List.mem_cons_self ..)
    have hgen : ((capInstallAt t i handle threadGen .reply {} kcapBadgeNone).slots i).gen = (t.slots i).gen := by
      rw [installAt_eq hlo hw]
      simp [setSlot, seatedEntry]
    simp only [List.head?_cons, CapTable.mintReply, mapSlot_slots_self, mapSlot_replyLive, capReplySeqSeat, hgen]

theorem canTakeReply_iff (h : Exact t q) :
    capCanTakeReply t = true ↔ ∃ cap, (capInstallReply t handle threadGen callSeq).2 = .ok cap := by
  rw [h.installReply_eq, capCanTakeReply]
  by_cases hmax : capReplyMax ≤ t.replyLive
  · simp [hmax, Nat.not_lt.2 hmax]
  · rw [if_neg hmax]
    by_cases hq : q = []
    · rw [if_pos (h.head_eq_none_iff.2 hq)]
      simp [hq]
    · rw [if_neg (mt h.head_eq_none_iff.1 hq)]
      obtain ⟨i, l, rfl⟩ := List.exists_cons_of_ne_nil hq
      simp [Nat.lt_of_not_le hmax]

end Exact

theorem capLookup_some {cap : Nat} (h : capLookup t cap = some i) :
    i = capIndex cap ∧ i < t.width ∧ (t.slots i).type ≠ .empty ∧ (t.slots i).gen = capGen cap := by
  simp only [capLookup] at h
  split at h
  · simp at h
  split at h
  · simp at h
  split at h
  · simp at h
  · rename_i h1 h2 h3
    simp only [Option.some.injEq] at h
    subst h
    exact ⟨rfl, Nat.lt_of_not_le h1, h2, by simpa using h3⟩

theorem uninstallReply_cases (t : CapTable) (cap handle : Nat) :
    capUninstallReply t cap handle = (t, false) ∨
      (capUninstallReply t cap handle = (capSlotVacate t (capIndex cap), true) ∧ capIndex cap < t.width ∧
        (t.slots (capIndex cap)).type = .reply ∧ (t.slots (capIndex cap)).obj = handle) := by
  simp only [capUninstallReply]
  cases hlook : capLookup t cap with
  | none => exact .inl rfl
  | some i =>
    obtain ⟨rfl, hw, -, -⟩ := capLookup_some hlook
    simp only [ne_eq, ite_not]
    split
    · split
      · exact .inr ⟨rfl, hw, ‹_›, ‹_›⟩
      · exact .inl rfl
    · exact .inl rfl

theorem capClose_cases (t : CapTable) (cap : Nat) :
    (∃ e, capClose t cap = (t, .error e)) ∨
      (capClose t cap = (capSlotVacate t (capIndex cap), .ok (capIndex cap)) ∧ capIndex cap < t.width ∧
        (t.slots (capIndex cap)).type ≠ .empty) := by
  simp only [capClose]
  cases hlook : capLookup t cap with
  | none => exact .inl ⟨_, rfl⟩
  | some i =>
    obtain ⟨rfl, hw, hlive, -⟩ := capLookup_some hlook
    by_cases hlo : capIndex cap < capFirstDynamic
    · exact .inl ⟨_, if_pos hlo⟩
    · exact .inr ⟨if_neg hlo, hw, hlive⟩

/-! ### Runs -/

/-- The operations of the kernel on one table. An object's entry has the type of its object, so an install is
never of the empty or the reply type. -/
inductive TableOp where
  | install (obj objGen : Nat) (type : CapType) (rights : Rights)
  | installAt (index obj objGen : Nat) (type : CapType) (rights : Rights) (badge : Nat)
  | installReply (handle threadGen callSeq : Nat)
  | uninstallReply (cap handle : Nat)
  | close (cap : Nat)
  | teardownVacate (index : Nat)

/-- What an operation did to the free list. -/
inductive SlotEvent where
  | took (index : Nat)
  | vacated (index : Nat)
  deriving DecidableEq, Repr

/-- The asserts in front of an operation: the slot it names is in the run and empty, or live, and the type it
seats is an object's. -/
def TableOp.Legal (t : CapTable) : TableOp → Prop
  | .install _ _ type _ => type ≠ .empty ∧ type ≠ .reply
  | .installAt index _ _ type _ _ => capFirstDynamic ≤ index ∧ index < t.width ∧ (t.slots index).type = .empty ∧
      type ≠ .empty ∧ type ≠ .reply
  | .teardownVacate index => index < t.width ∧ (t.slots index).type ≠ .empty
  | .installReply .. | .uninstallReply .. | .close .. => True

/-- The event of an answer that is the handle of the slot taken. -/
def tookEvent : Except Errno Nat → List SlotEvent
  | .ok cap => [.took (capIndex cap)]
  | .error _ => []

def TableOp.apply (t : CapTable) : TableOp → CapTable × List SlotEvent
  | .install obj objGen type rights =>
    let (u, r) := capInstall t obj objGen type rights
    (u, tookEvent r)
  | .installAt index obj objGen type rights badge => (capInstallAt t index obj objGen type rights badge, [.took index])
  | .installReply handle threadGen callSeq =>
    let (u, r) := capInstallReply t handle threadGen callSeq
    (u, tookEvent r)
  | .uninstallReply cap handle =>
    let (u, done) := capUninstallReply t cap handle
    (u, if done then [.vacated (capIndex cap)] else [])
  | .close cap =>
    match capClose t cap with
    | (u, .ok index) => (u, [.vacated index])
    | (u, .error _) => (u, [])
  | .teardownVacate index => (capSlotVacate t index, [.vacated index])

/-- A FIFO queue of slots: a vacated slot joins at the tail, and the reserved ones never join. -/
def SlotEvent.move (q : List Nat) : SlotEvent → List Nat
  | .took i => q.erase i
  | .vacated i => if i < capFirstDynamic then q else q ++ [i]

/-- The queue that the events leave of a fresh run's. -/
def queueAfter (width : Nat) (events : List SlotEvent) : List Nat :=
  events.foldl SlotEvent.move (freshQueue width)

/-- The tables reached from an attach, with the events so far. -/
inductive TableRun (free : List Nat) (width : Nat) : List SlotEvent → CapTable → Prop where
  | attach {t rest} (h : capSlabAttach free width = some (t, rest)) : TableRun free width [] t
  | step {events t} (op : TableOp) (hr : TableRun free width events t) (hl : op.Legal t) :
      TableRun free width (events ++ (op.apply t).2) (op.apply t).1

theorem capIndex_handle {g : Nat} (h : i < kcapWidthMax) : capIndex (capHandle g i) = i := by
  simp only [capIndex, capHandle, kcapIndexBits, kcapWidthMax] at *
  omega

theorem attach_type {free rest : List Nat} {width : Nat} (h : capSlabAttach free width = some (t, rest)) :
    t.width = width ∧ ∀ j, (t.slots j).type = .empty := by
  simp only [capSlabAttach] at h
  split at h
  · simp at h
  · simp only [Option.some.injEq, Prod.mk.injEq] at h
    obtain ⟨rfl, -⟩ := h
    refine ⟨rfl, fun j => ?_⟩
    show ((capRunFreeBuild {} width).slots j).type = .empty
    simp only [capRunFreeBuild]
    split
    · rfl
    · rw [buildFrom_slots]
      split <;> rfl

theorem exact_attach {free rest : List Nat} {width : Nat} (hlo : capFirstDynamic ≤ width)
    (hw : width ≤ kcapWidthMax) (h : capSlabAttach free width = some (t, rest)) : Exact t (freshQueue width) := by
  obtain ⟨-, hempty⟩ := attach_type h
  have hcount : ∀ ty, ty ≠ .empty → t.typeCount ty = 0 := by
    intro ty hty
    refine count_eq_zero.2 fun j _ => ?_
    simp [hempty j, hty.symm]
  simp only [capSlabAttach] at h
  split at h
  · simp at h
  · rename_i dir rest' _
    simp only [Option.some.injEq, Prod.mk.injEq] at h
    obtain ⟨rfl, -⟩ := h
    have hlive : (capRunFreeBuild {} width).replyLive = 0 ∧ (capRunFreeBuild {} width).irqLive = 0 := by
      simp only [capRunFreeBuild]
      split
      · exact ⟨rfl, rfl⟩
      · exact buildFrom_live ..
    exact ⟨freeList_build hlo hw dir, by rw [hcount _ (by decide)]; exact hlive.1,
      by rw [hcount _ (by decide)]; exact hlive.2⟩

theorem Exact.apply (h : Exact t q) (op : TableOp) (hl : op.Legal t) :
    Exact (op.apply t).1 ((op.apply t).2.foldl SlotEvent.move q) := by
  cases op with
  | install obj objGen type rights =>
    simp only [TableOp.apply, h.install_eq]
    cases q with
    | nil => exact h
    | cons i l =>
      simpa [tookEvent, SlotEvent.move, capIndex_handle (h.lt_max (List.mem_cons_self ..))] using
        h.installAt (List.mem_cons_self ..) hl.1 hl.2
  | installAt index obj objGen type rights badge =>
    obtain ⟨h1, h2, h3, h4, h5⟩ := hl
    exact h.installAt ((h.mem index).2 ⟨h1, h2, h3⟩) h4 h5
  | installReply handle threadGen callSeq =>
    simp only [TableOp.apply, h.installReply_eq]
    split
    · exact h
    cases q with
    | nil => exact h
    | cons i l =>
      simpa [tookEvent, SlotEvent.move, capIndex_handle (h.lt_max (List.mem_cons_self ..))] using
        h.mintReply (List.mem_cons_self ..)
  | uninstallReply cap handle =>
    rcases uninstallReply_cases t cap handle with he | ⟨he, hw, hty, -⟩
    · simpa [TableOp.apply, he] using h
    · simpa [TableOp.apply, he, SlotEvent.move] using h.vacate hw (by simp [hty])
  | close cap =>
    rcases capClose_cases t cap with ⟨e, he⟩ | ⟨he, hw, hlive⟩
    · simpa [TableOp.apply, he] using h
    · simpa [TableOp.apply, he, SlotEvent.move] using h.vacate hw hlive
  | teardownVacate index => exact h.vacate hl.1 hl.2

theorem TableRun.exact {free : List Nat} {width : Nat} {events : List SlotEvent} (hlo : capFirstDynamic ≤ width)
    (hw : width ≤ kcapWidthMax) (hr : TableRun free width events t) : Exact t (queueAfter width events) := by
  induction hr with
  | attach h => exact exact_attach hlo hw h
  | step op hr hl ih =>
    rw [queueAfter, List.foldl_append]
    exact ih.apply op hl

theorem width_le_of_admissible {length width : Nat} (hlen : length * kcapChunkSlots ≤ kcapWidthMax)
    (h : AdmissibleWidth length width) : width ≤ kcapWidthMax := by
  have := h.2
  simp only [kcapChunksFor, kcapChunkSlots, kcapWidthMax] at *
  omega

/-- The capability free list. From the attach of any width the directory admits, every run of the table's
operations keeps the ring at the head exactly the empty dynamic slots, in the order they were vacated, with both
live counts exact; an install takes the slot at the front; and the reply test is true exactly when the mint that
follows succeeds. -/
theorem capTable_runs_exact {length width : Nat} {free : List Nat} {events : List SlotEvent}
    (hlen : length * kcapChunkSlots ≤ kcapWidthMax) (hadm : AdmissibleWidth length width)
    (hr : TableRun free width events t) :
    Exact t (queueAfter width events) ∧
      (∀ obj objGen type rights, (capInstall t obj objGen type rights).2 =
        match (queueAfter width events).head? with
        | none => .error .emfile
        | some i => .ok (capHandle (t.slots i).gen i)) ∧
      (∀ handle threadGen callSeq cap, (capInstallReply t handle threadGen callSeq).2 = .ok cap →
        (queueAfter width events).head? = some (capIndex cap)) ∧
      ∀ handle threadGen callSeq,
        capCanTakeReply t = true ↔ ∃ cap, (capInstallReply t handle threadGen callSeq).2 = .ok cap := by
  have h := hr.exact hadm.1 (width_le_of_admissible hlen hadm)
  refine ⟨h, fun obj objGen type rights => ?_, fun handle threadGen callSeq cap hok => ?_,
    fun handle threadGen callSeq => h.canTakeReply_iff⟩
  · rw [h.install_eq]
    cases queueAfter width events <;> rfl
  · rw [h.installReply_eq] at hok
    split at hok
    · simp at hok
    generalize queueAfter width events = q at h hok
    cases q with
    | nil => simp at hok
    | cons i l =>
      simp only [List.head?_cons, Except.ok.injEq] at hok
      rw [← hok, capIndex_handle (h.lt_max (List.mem_cons_self ..))]
      rfl

/-- A run of one mint and its close on a table of eight slots: the slot comes back at the tail. -/
theorem capTable_runs_exact_mint_close :
    ∃ t events, TableRun [0] 8 events t ∧ queueAfter 8 events = [2, 3, 4, 5, 6, 7, 1] ∧
      Exact t (queueAfter 8 events) := by
  have h0 : TableRun [0] 8 [] _ := .attach rfl
  have h1 := TableRun.step (.installReply 5 0 7) h0 trivial
  have h2 := TableRun.step (.close 1) h1 trivial
  have hadm : AdmissibleWidth 31 8 := by decide
  exact ⟨_, _, h2, by decide, (capTable_runs_exact (by decide) hadm h2).1⟩

end KickOS
