import Mathlib.Tactic

/-! The capability table of one thread (`kernel/include/kickos/cap.h`, `kernel/syscall/cap.cc`).

A table is a run of `width` entries. The free dynamic slots are kept in a circular doubly linked list
threaded through the `obj` words of the dead entries themselves, as two 16-bit halves, with slot indices
biased by one so that zero can say "none". Words are naturals below their width; `obj` is read as the
unsigned image of the source's `int32_t`. -/

namespace KickOS

/-- The error values of the system calls, without their sign. -/
inductive Errno where
  | ebadf | eacces | eperm | einval | emfile | enomem | enfile | eagain | edeadlk | eownerdead | etimedout
  | ecanceled | epipe | efault | ebusy | esrch | eoverflow | econnrefused | enotsup | enotify | ealready
  deriving DecidableEq, Repr

/-- What a capability names (`CapType`). -/
inductive CapType where
  | empty | endpoint | reply | irq | frame | aspace | notify | program
  deriving DecidableEq, Repr

/-- The rights bits of a capability (`CapRights`), one field a bit. -/
structure Rights where
  wait : Bool := false
  signal : Bool := false
  transfer : Bool := false
  handout : Bool := false
  deriving DecidableEq, Repr

namespace Rights

/-- `CAP_RIGHTS_ALL`. -/
def all : Rights := ⟨true, true, true, true⟩

/-- `a & b`. -/
def inter (a b : Rights) : Rights :=
  ⟨a.wait && b.wait, a.signal && b.signal, a.transfer && b.transfer, a.handout && b.handout⟩

/-- `a & ~b`. -/
def diff (a b : Rights) : Rights :=
  ⟨a.wait && !b.wait, a.signal && !b.signal, a.transfer && !b.transfer, a.handout && !b.handout⟩

/-- `(rights & need) == need`. -/
def has (rights need : Rights) : Bool := rights.inter need = need

end Rights

/-- `CapEntry`: a live entry carries an object handle, a dead one the two links of the free list. -/
structure CapEntry where
  obj : Nat := 0
  objGen : Nat := 0
  type : CapType := .empty
  seqLo : Nat := 0
  rights : Rights := {}
  seqHi : Nat := 0
  gen : Nat := 0
  badge : Nat := 0
  deriving DecidableEq, Repr

/-! ### Geometry (`cmake/cap_geometry.cmake`, `cap_width.h.in`) -/

/-- `KICKOS_CAP_FIRST_DYNAMIC`: slot 0 is the standard output seat. -/
def capFirstDynamic : Nat := 1

/-- `KICKOS_CAP_REPLY_MAX`. -/
def capReplyMax : Nat := 1

def kcapIndexBits : Nat := 16

/-- `KCAP_WIDTH_MAX`. -/
def kcapWidthMax : Nat := 248

def kcapChunkSlots : Nat := 8

/-- `KCAP_FREE_NONE`. -/
def kcapFreeNone : Nat := 0

/-- `KCAP_BADGE_NONE`. -/
def kcapBadgeNone : Nat := 0

/-- How many chunks a run of `width` slots takes (`kcap_chunks_for`). -/
def kcapChunksFor (width : Nat) : Nat := (width + kcapChunkSlots - 1) / kcapChunkSlots

/-- The index half of a capability handle. -/
def capIndex (cap : Nat) : Nat := cap % 2 ^ kcapIndexBits

/-- The generation half of a capability handle. -/
def capGen (cap : Nat) : Nat := cap / 2 ^ kcapIndexBits

/-- `(gen << KCAP_INDEX_BITS) | index`. -/
def capHandle (gen index : Nat) : Nat := gen * 2 ^ kcapIndexBits + index

/-! ### The call sequence of a reply capability -/

/-- `cap_reply_seq_seat`: eight bits, split over the two spare half bytes. -/
def capReplySeqSeat (e : CapEntry) (seq8 : Nat) : CapEntry :=
  { e with seqLo := seq8 % 16, seqHi := seq8 / 16 }

/-- `cap_reply_seq`. -/
def capReplySeq (e : CapEntry) : Nat := e.seqHi * 16 + e.seqLo

/-! ### The links of a dead entry -/

/-- `kcap_free_ref`. -/
def kcapFreeRef (index : Nat) : Nat := (index + 1) % 2 ^ 16

/-- `kcap_free_index`: unsigned, so the index of "none" is the all-ones word. -/
def kcapFreeIndex (ref : Nat) : Nat := if ref = 0 then 2 ^ 32 - 1 else ref - 1

/-- `kcap_free_next`: the low half. -/
def kcapFreeNext (e : CapEntry) : Nat := e.obj % 2 ^ 16

/-- `kcap_free_prev`: the high half. -/
def kcapFreePrev (e : CapEntry) : Nat := e.obj / 2 ^ 16 % 2 ^ 16

/-- `kcap_free_link`. -/
def kcapFreeLink (e : CapEntry) (prev next : Nat) : CapEntry := { e with obj := prev * 2 ^ 16 + next }

def kcapFreeSetNext (e : CapEntry) (next : Nat) : CapEntry := kcapFreeLink e (kcapFreePrev e) next

def kcapFreeSetPrev (e : CapEntry) (prev : Nat) : CapEntry := kcapFreeLink e prev (kcapFreeNext e)

/-! ### The table -/

/-- The capability fields of a thread: its run of entries, the head of the free list, and the two live
counts. A chunk belongs to one run at a time, so the entries are kept with the run and not with the slab. -/
structure CapTable where
  slots : Nat → CapEntry := fun _ => {}
  width : Nat := 0
  freeHead : Nat := kcapFreeNone
  replyLive : Nat := 0
  irqLive : Nat := 0
  /-- The slab's chunks this run reserves. -/
  dir : List Nat := []

namespace CapTable

def setSlot (t : CapTable) (index : Nat) (e : CapEntry) : CapTable :=
  { t with slots := Function.update t.slots index e }

def mapSlot (t : CapTable) (index : Nat) (f : CapEntry → CapEntry) : CapTable :=
  t.setSlot index (f (t.slots index))

end CapTable

open CapTable

/-- The loop of `cap_run_free_build`: slots `i`, `i + 1`, .., `last`. -/
def capRunFreeBuildFrom (last : Nat) : Nat → Nat → CapTable → CapTable
  | 0, _, t => t
  | fuel + 1, i, t =>
    let prev := if i = capFirstDynamic then last else i - 1
    let next := if i = last then capFirstDynamic else i + 1
    capRunFreeBuildFrom last fuel (i + 1)
      (t.mapSlot i fun e => kcapFreeLink e (kcapFreeRef prev) (kcapFreeRef next))

/-- `cap_run_free_build`: thread every dynamic slot of a freshly zeroed run in ascending order. -/
def capRunFreeBuild (t : CapTable) (capacity : Nat) : CapTable :=
  if capacity ≤ capFirstDynamic then { t with freeHead := kcapFreeNone }
  else
    { capRunFreeBuildFrom (capacity - 1) (capacity - capFirstDynamic) capFirstDynamic t with
      freeHead := kcapFreeRef capFirstDynamic }

/-- `cap_run_peek_free`: the head free slot, without taking it. -/
def capRunPeekFree (head : Nat) : Option Nat :=
  if head = kcapFreeNone then none else some (kcapFreeIndex head)

/-- `cap_run_free_unlink`: take a linked slot out of the list. -/
def capRunFreeUnlink (t : CapTable) (index : Nat) : CapTable :=
  if index < capFirstDynamic then t
  else
    let e := t.slots index
    let self := kcapFreeRef index
    let p := kcapFreePrev e
    let n := kcapFreeNext e
    if n = self then { t with freeHead := kcapFreeNone }
    else
      let t := t.mapSlot (kcapFreeIndex p) fun e => kcapFreeSetNext e n
      let t := t.mapSlot (kcapFreeIndex n) fun e => kcapFreeSetPrev e p
      if t.freeHead = self then { t with freeHead := n } else t

/-- `cap_run_free_release`: return a slot to the tail of the list. -/
def capRunFreeRelease (t : CapTable) (index : Nat) : CapTable :=
  if index < capFirstDynamic then t.mapSlot index fun e => kcapFreeLink e kcapFreeNone kcapFreeNone
  else
    let self := kcapFreeRef index
    if t.freeHead = kcapFreeNone then
      { t.mapSlot index fun e => kcapFreeLink e self self with freeHead := self }
    else
      let h := kcapFreeIndex t.freeHead
      let tail := kcapFreePrev (t.slots h)
      let t := t.mapSlot index fun e => kcapFreeLink e tail t.freeHead
      let t := t.mapSlot (kcapFreeIndex tail) fun e => kcapFreeSetNext e self
      t.mapSlot h fun e => kcapFreeSetPrev e self

/-- The assert at the head of `cap_slab_attach`; `length` is the directory's, the system's own. -/
def AdmissibleWidth (length width : Nat) : Prop := capFirstDynamic ≤ width ∧ kcapChunksFor width ≤ length

instance (length width : Nat) : Decidable (AdmissibleWidth length width) :=
  inferInstanceAs (Decidable (_ ∧ _))

/-- `CapChunkList::take`: every chunk of a run or none, from the front of the slab's free list. -/
def capChunkTake (free : List Nat) (chunks : Nat) : Option (List Nat × List Nat) :=
  if chunks ≤ free.length then some (free.take chunks, free.drop chunks) else none

/-- `cap_slab_attach`: reserve a run, zero it and thread its free list up to the width. -/
def capSlabAttach (free : List Nat) (width : Nat) : Option (CapTable × List Nat) :=
  match capChunkTake free (kcapChunksFor width) with
  | none => none
  | some (dir, rest) => some ({ capRunFreeBuild {} width with width, dir }, rest)

/-- `cap_install_at`: seat an entry in a named empty slot. An index out of the dynamic range seats nothing. -/
def capInstallAt (t : CapTable) (index obj objGen : Nat) (type : CapType) (rights : Rights) (badge : Nat) :
    CapTable :=
  if index < capFirstDynamic ∨ t.width ≤ index then t
  else
    let t := capRunFreeUnlink t index
    let t := t.mapSlot index fun e => capReplySeqSeat { e with obj, objGen, type, rights, badge } 0
    if type = .irq then { t with irqLive := t.irqLive + 1 } else t

/-- `cap_install`: seat an entry in the free list's head slot; the result is its handle. -/
def capInstall (t : CapTable) (obj objGen : Nat) (type : CapType) (rights : Rights) :
    CapTable × Except Errno Nat :=
  match capRunPeekFree t.freeHead with
  | none => (t, .error .emfile)
  | some index =>
    let t := capInstallAt t index obj objGen type rights kcapBadgeNone
    (t, .ok (capHandle (t.slots index).gen index))

/-- `cap_install_reply`: mint the reply capability of a caller, which `handle` names with the whole
generation `threadGen` of its slot, at its call sequence. -/
def capInstallReply (t : CapTable) (handle threadGen callSeq : Nat) : CapTable × Except Errno Nat :=
  if capReplyMax ≤ t.replyLive then (t, .error .emfile)
  else
    match capRunPeekFree t.freeHead with
    | none => (t, .error .emfile)
    | some index =>
      let t := capInstallAt t index handle threadGen .reply {} kcapBadgeNone
      let t := t.mapSlot index fun e => capReplySeqSeat e (callSeq % 256)
      ({ t with replyLive := t.replyLive + 1 }, .ok (capHandle (t.slots index).gen index))

/-- `cap_slot_vacate`. -/
def capSlotVacate (t : CapTable) (index : Nat) : CapTable :=
  let type := (t.slots index).type
  let t := if type = .reply then { t with replyLive := t.replyLive - 1 } else t
  let t := if type = .irq then { t with irqLive := t.irqLive - 1 } else t
  let t := t.mapSlot index fun e => { e with gen := (e.gen + 1) % 2 ^ 16, type := .empty, rights := {} }
  capRunFreeRelease t index

/-- `cap_lookup`: the index of the live entry a handle names. -/
def capLookup (t : CapTable) (cap : Nat) : Option Nat :=
  let idx := capIndex cap
  if t.width ≤ idx then none
  else if (t.slots idx).type = .empty then none
  else if (t.slots idx).gen ≠ capGen cap then none
  else some idx

/-- `cap_uninstall_reply`: retract a reply capability minted for the thread `handle` names. -/
def capUninstallReply (t : CapTable) (cap handle : Nat) : CapTable × Bool :=
  match capLookup t cap with
  | none => (t, false)
  | some idx =>
    if (t.slots idx).type ≠ .reply then (t, false)
    else if (t.slots idx).obj ≠ handle then (t, false)
    else (capSlotVacate t idx, true)

/-- `cap_can_take_reply`. -/
def capCanTakeReply (t : CapTable) : Bool :=
  if t.freeHead = kcapFreeNone then false else decide (t.replyLive < capReplyMax)

/-- What `handle_close` does to the closer's table: the slot it vacates, or the refusal. -/
def capClose (t : CapTable) (cap : Nat) : CapTable × Except Errno Nat :=
  match capLookup t cap with
  | none => (t, .error .ebadf)
  | some idx => if idx < capFirstDynamic then (t, .error .eperm) else (capSlotVacate t idx, .ok idx)

end KickOS
