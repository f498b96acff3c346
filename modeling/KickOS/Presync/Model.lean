import Mathlib.Tactic

/-! Frames synced ahead of the kernel lock (`kernel/include/kickos/presync.h`, `kernel/mem/aspace.cc`).

A call that maps frames plans under the lock which spans owe a cache sync, syncs them granule by granule outside it, and
maps them in one locked pass. The pass maintains nothing: a span that owes a sync is mapped only where the call's record
is live and covers it. A completed mapping drops every other live record that meets it, and a pass that met a span it
could not map is refused, unwound and repeated.

Every locked section is one step, and so are the look at a frame's allocation and the sync of its granule. Calls of all
threads interleave at these steps. Spans outside the frame pool owe nothing, and every block is a run of frames. -/

namespace KickOS
namespace Presync
open Function (update)

def UINT32_MAX : Nat := 2 ^ 32 - 1

/-- The granule, the bounds of the pool's frames and `PRESYNC_SPANS`. -/
structure Pool where
  granule : Nat
  lo : Nat
  hi : Nat
  spans : Nat
  pos : 0 < granule

/-- One entry of a `PresyncSpans`. -/
structure Span where
  pa : Nat
  pages : Nat
  deriving DecidableEq, Repr

def Span.stop (P : Pool) (sp : Span) : Nat := sp.pa + sp.pages * P.granule

/-- The granules of a span, as `presync_run` walks them. -/
def Span.granules (P : Pool) (sp : Span) : List Nat := (List.range sp.pages).map fun j => sp.pa + j * P.granule

/-- `presync_add`: nothing is noted when the spans are full or the span is empty or too wide. -/
def presyncAdd (P : Pool) (r : List Span) (sp : Span) : Option (List Span) :=
  if sp.pages = 0 ∨ UINT32_MAX < sp.pages ∨ P.spans ≤ r.length then none else some (r ++ [sp])

/-- `presync_covers`: one span holds every granule. -/
def presyncCovers (P : Pool) (r : List Span) (sp : Span) : Bool :=
  r.any fun x => decide (x.pa ≤ sp.pa ∧ sp.stop P ≤ x.stop P)

/-- `presync_meets`: any span shares a granule. -/
def presyncMeets (P : Pool) (r : List Span) (sp : Span) : Bool :=
  r.any fun x => decide (x.pa < sp.stop P ∧ sp.pa < x.stop P)

/-- `presync_pool_pages`: the granules inside the pool's frames. -/
def presyncPoolPages (P : Pool) (sp : Span) : Nat :=
  let a := if sp.pa < P.lo then P.lo else sp.pa
  let b := if P.hi < sp.stop P then P.hi else sp.stop P
  if P.granule = 0 ∨ b ≤ a then 0 else (b - a + P.granule - 1) / P.granule

/-- A frame run or a reservation: a run of whole granules, inside the pool or outside it. -/
structure Block (P : Pool) where
  span : Span
  aligned : P.granule ∣ span.pa
  some : 0 < span.pages
  narrow : span.pages ≤ UINT32_MAX
  fits : span.stop P < 2 ^ 64
  whole : presyncPoolPages P span = 0 ∨ (P.lo ≤ span.pa ∧ span.stop P ≤ P.hi)

/-- The pool's frames a block is made of. -/
def Block.frames {P : Pool} (b : Block P) : List Nat :=
  if presyncPoolPages P b.span = 0 then [] else b.span.granules P

/-- `PresyncRecord`. -/
structure Record where
  noted : List Span
  edits : List Span
  live : Bool
  refused : Bool
  active : Bool
  deriving DecidableEq, Repr

/-- A record as `presync_fresh` leaves it. -/
def Record.fresh : Record := { noted := [], edits := [], live := false, refused := false, active := false }

/-- A mapping a call asks for: the block it names, and whether its type is cacheable. -/
structure Want where
  block : Nat
  cacheable : Bool
  deriving DecidableEq, Repr

/-- What a call's arguments ask for: a mapping for each window, and one for its task data. -/
def Asks (P : Pool) : Type := { ws : List Want // ws.length ≤ P.spans }

instance (P : Pool) : DecidableEq (Asks P) := inferInstanceAs (DecidableEq { ws : List Want // ws.length ≤ P.spans })

/-- An installed mapping: what an unwind finds it by (the new thread's slot, the new space, or the range itself), and
the block it maps. -/
structure Mapping where
  holder : Nat
  block : Nat
  span : Span
  deriving DecidableEq, Repr

/-- Where a thread is in a call that syncs ahead of the lock. -/
inductive Phase (P : Pool) where
  | user
  /-- `presync_run`: the granules still to be looked at. -/
  | sync (call : Asks P) (todo : List Nat)
  /-- The granule's frame was found allocated. -/
  | found (call : Asks P) (p : Nat) (todo : List Nat)
  /-- The locked pass is over. -/
  | ended (call : Asks P)
  /-- `presync_yield`: the call goes round. -/
  | again (call : Asks P)
  deriving DecidableEq

/-- An entry of the log that the statements about a record read. -/
inductive Event (n : Nat) where
  | planned (i : Fin n)
  | synced (i : Fin n) (p : Nat)
  /-- The locked pass mapped a span; `owing` when it owed a sync. -/
  | mapped (i : Fin n) (sp : Span) (owing : Bool)
  /-- A completed call's edit. -/
  | edited (i : Fin n) (sp : Span)
  deriving DecidableEq, Repr

structure St (P : Pool) (n : Nat) where
  /-- The frame runs and reservations. -/
  blocks : Nat → Option (Block P)
  /-- `VR_SYNC_OWED`, `FrameRun::sync_owed`. -/
  owed : Nat → Bool
  /-- `g_frames.is_allocated`. -/
  frames : Nat → Bool
  /-- The blocks a thread's own capability table and its task's space keep. -/
  names : Fin n → List Nat
  recs : Fin n → Record
  /-- `presync_live`. -/
  presyncLive : Nat
  phase : Fin n → Phase P
  /-- `cancel_kind` is not `CANCEL_NONE`. -/
  cancelled : Fin n → Bool
  maps : List Mapping
  /-- Newest first. -/
  log : List (Event n)

/-- What a locked pass is answered by the parts of the kernel the record does not concern. -/
structure Answers where
  /-- An image to copy has its full stage, or there is none to copy. -/
  staged : Bool
  /-- The block is granted already with another type. -/
  retypes : Nat → Bool
  /-- The tables, the range list and the space have room for the mapping of the block. -/
  room : Nat → Bool
  /-- Every later step of the call succeeds. -/
  late : Bool

inductive Act (P : Pool) (n : Nat) where
  /-- `presync_plan`; `admits` is what else a span has to pass to be noted. -/
  | plan (i : Fin n) (call : Asks P) (retypes admits : Nat → Bool)
  /-- `frame_pool_ptr`. -/
  | look (i : Fin n)
  /-- `alias_sync`. -/
  | clean (i : Fin n)
  /-- The call's body, under the lock. -/
  | pass (i : Fin n) (holder : Nat) (ans : Answers)
  /-- `presync_retry`. -/
  | finish (i : Fin n)
  /-- A cancel or a slay is recorded. -/
  | cancel (i : Fin n)
  /-- The thread exits, and its slot is another's. -/
  | exit (i : Fin n)
  /-- Frames are taken for a frame run or a reservation. -/
  | make (i : Fin n) (o : Nat) (b : Block P)
  /-- A capability to the block is installed, or a thread joins its space. -/
  | name (i : Fin n) (o : Nat)
  /-- A capability is closed. -/
  | unname (i : Fin n) (o : Nat)
  /-- The last holder is gone. -/
  | free (o : Nat)
  | unmap (m : Mapping)

namespace St

variable {P : Pool} {n : Nat} (s : St P n)

def setRec (i : Fin n) (r : Record) : St P n := { s with recs := update s.recs i r }

def setPhase (i : Fin n) (p : Phase P) : St P n := { s with phase := update s.phase i p }

def note (e : Event n) : St P n := { s with log := e :: s.log }

/-- `presync_drop`. -/
def presyncDrop (i : Fin n) : St P n :=
  if (s.recs i).live then
    { s.setRec i { s.recs i with live := false } with presyncLive := s.presyncLive - 1 }
  else s

/-- `presync_begin`. -/
def presyncBegin (i : Fin n) : St P n :=
  let t := s.presyncDrop i
  t.setRec i { t.recs i with noted := [], edits := [], refused := false, active := true }

/-- `presync_note`; `none` where its assertion fails. -/
def presyncNote (i : Fin n) (sp : Span) : Option (St P n) :=
  if presyncPoolPages P sp = 0 then some s
  else
    match presyncAdd P (s.recs i).noted sp with
    | none => none
    | some noted =>
      let t := s.setRec i { s.recs i with noted := noted, live := true }
      if (s.recs i).live then some t else some { t with presyncLive := t.presyncLive + 1 }

/-- Whether a mapping of the block owes its frames a sync. -/
def syncs (retypes : Nat → Bool) (w : Want) : Bool := !w.cacheable || retypes w.block || s.owed w.block

/-- The notes of a plan: the spans of the call's blocks that owe a sync. -/
def noteAll (i : Fin n) (retypes admits : Nat → Bool) : List Want → St P n → Option (St P n)
  | [], s => some s
  | w :: ws, s =>
    match s.blocks w.block with
    | none => noteAll i retypes admits ws s
    | some b =>
      if w.block ∈ s.names i ∧ admits w.block ∧ s.syncs retypes w then
        (s.presyncNote i b.span).bind (noteAll i retypes admits ws)
      else noteAll i retypes admits ws s

/-- `sync_frames`: the answer, and the record, marked where it is refused. -/
def syncFrames (i : Fin n) (sp : Span) : St P n × Bool :=
  if presyncPoolPages P sp = 0 then (s, true)
  -- presync_excuses
  else if (s.recs i).live ∧ presyncCovers P (s.recs i).noted sp then (s, true)
  else (s.setRec i { s.recs i with refused := true }, false)

/-- A mapping that owes no sync needs no excuse. -/
def excused (i : Fin n) (retypes : Nat → Bool) (w : Want) (sp : Span) : St P n × Bool :=
  if s.syncs retypes w then s.syncFrames i sp else (s, true)

/-- `edited`; `none` where its assertion fails. -/
def addEdit (i : Fin n) (sp : Span) : Option (St P n) :=
  if presyncPoolPages P sp = 0 then some s
  else if (s.recs i).active then
    (presyncAdd P (s.recs i).edits sp).map fun edits => s.setRec i { s.recs i with edits := edits }
  else none

/-- One mapping of a locked pass: `aspace_self_grant`, `aspace_cap_map`, `aspace_window_map`, `aspace_handoff`. The
answer is false when the call fails here. -/
def mapOne (i : Fin n) (holder : Nat) (ans : Answers) (w : Want) : Option (St P n × Bool) :=
  match s.blocks w.block with
  | none => some (s, false)
  | some b =>
    if w.block ∉ s.names i then some (s, false)
    else
      let r := s.excused i ans.retypes w b.span
      if !r.2 || !ans.room w.block then some (r.1, false)
      else
        (r.1.addEdit i b.span).map fun t =>
          ({ t.note (.mapped i b.span (s.syncs ans.retypes w)) with
              maps := ⟨holder, w.block, b.span⟩ :: t.maps
              owed := update t.owed w.block (!w.cacheable) }, true)

/-- The mappings of a locked pass, up to the first that fails. -/
def mapAll (i : Fin n) (holder : Nat) (ans : Answers) : List Want → St P n → Option (St P n × Bool)
  | [], s => some (s, true)
  | w :: ws, s =>
    match s.mapOne i holder ans w with
    | none => none
    | some (t, false) => some (t, false)
    | some (t, true) => mapAll i holder ans ws t

/-- `presync_dropped_by`. -/
def droppedBy (i : Fin n) (sp : Span) (j : Fin n) : Bool :=
  decide (j ≠ i) && (s.recs j).live && presyncMeets P (s.recs j).noted sp

/-- `presync_void`: every other live record meeting the span is dropped. -/
def presyncVoid (i : Fin n) (sp : Span) : St P n :=
  if s.presyncLive = 0 then s
  else
    { s with
      recs := fun j => if s.droppedBy i sp j then { s.recs j with live := false } else s.recs j
      presyncLive := s.presyncLive - (Finset.univ.filter fun j => s.droppedBy i sp j = true).card }

/-- The edits of a completed call, in turn. -/
def voidAll (i : Fin n) : List Span → St P n → St P n
  | [], s => s
  | sp :: sps, s => voidAll i sps ((s.presyncVoid i sp).note (.edited i sp))

/-- `presync_commit`. -/
def presyncCommit (i : Fin n) : St P n :=
  let t := voidAll i (s.recs i).edits s
  t.setRec i { t.recs i with edits := [] }

/-- The unwind of a failed pass: `spawn_unwind`, `domain_release`, `task_drop_hold`. -/
def unwind (holder : Nat) : St P n := { s with maps := s.maps.filter fun m => m.holder ≠ holder }

/-- The call's body: its mappings, and the commit if it succeeds. -/
def body (i : Fin n) (holder : Nat) (ans : Answers) (call : List Want) : Option (St P n) :=
  if !ans.staged then some (s.setRec i { s.recs i with refused := true })
  else
    match mapAll i holder ans call s with
    | none => none
    | some (t, ok) => if ok && ans.late then some (t.presyncCommit i) else some (t.unwind holder)

/-- `presync_end`. -/
def presyncEnd (i : Fin n) : St P n :=
  let refused := (s.recs i).refused
  let t := s.presyncDrop i
  t.setRec i { t.recs i with noted := [], edits := [], refused := false, active := refused }

/-- `presync_exit`, and `presync_fresh` for the slot's next thread. -/
def presyncExit (i : Fin n) : St P n := (s.presyncDrop i).setRec i Record.fresh

def step : Act P n → Option (St P n)
  | .plan i call retypes admits =>
    if s.phase i = .user ∨ s.phase i = .again call then
      ((s.presyncBegin i).note (.planned i) |> noteAll i retypes admits call.1).map fun t =>
        t.setPhase i (.sync call ((t.recs i).noted.flatMap (Span.granules P)))
    else none
  | .look i =>
    match s.phase i with
    | .sync call (p :: todo) =>
      if s.frames p then some (s.setPhase i (.found call p todo)) else some (s.setPhase i (.sync call todo))
    | _ => none
  | .clean i =>
    match s.phase i with
    | .found call p todo => some ((s.note (.synced i p)).setPhase i (.sync call todo))
    | _ => none
  | .pass i holder ans =>
    match s.phase i with
    | .sync call [] =>
      -- a free slot or space holds no mapping, and a range to be reserved is not held yet
      if ∀ m ∈ s.maps, m.holder ≠ holder then (s.body i holder ans call.1).map fun t => t.setPhase i (.ended call)
      else none
    | _ => none
  | .finish i =>
    match s.phase i with
    | .ended call =>
      if (s.recs i).refused then some ((s.presyncEnd i).setPhase i (.again call))
      else some ((s.presyncEnd i).setPhase i .user)
    | _ => none
  | .cancel i => some { s with cancelled := update s.cancelled i true }
  | .exit i =>
    if s.phase i = .user ∨ s.cancelled i then
      some { (s.presyncExit i).setPhase i .user with
        names := update s.names i []
        cancelled := update s.cancelled i false }
    else none
  | .make i o b =>
    if s.blocks o = none ∧ ∀ p ∈ b.frames, s.frames p = false then
      some { s with
        blocks := update s.blocks o (some b)
        owed := update s.owed o false
        frames := fun p => decide (p ∈ b.frames) || s.frames p
        names := update s.names i (o :: s.names i) }
    else none
  | .name i o =>
    if s.blocks o ≠ none then some { s with names := update s.names i (o :: s.names i) } else none
  | .unname i o =>
    -- a table and a space are given up by a call of their own thread, or by its exit
    if s.phase i = .user then some { s with names := update s.names i ((s.names i).erase o) } else none
  | .free o =>
    match s.blocks o with
    | none => none
    | some b =>
      if (∀ i, o ∉ s.names i) ∧ ∀ m ∈ s.maps, m.block ≠ o then
        some { s with
          blocks := update s.blocks o none
          frames := fun p => !decide (p ∈ b.frames) && s.frames p }
      else none
  | .unmap m => if m ∈ s.maps then some { s with maps := s.maps.erase m } else none

/-- Boot: no block, no call, every record fresh. -/
def start (P : Pool) (n : Nat) : St P n :=
  { blocks := fun _ => none
    owed := fun _ => false
    frames := fun _ => false
    names := fun _ => []
    recs := fun _ => Record.fresh
    presyncLive := 0
    phase := fun _ => .user
    cancelled := fun _ => false
    maps := []
    log := [] }

end St

inductive Reachable {P : Pool} {n : Nat} : St P n → Prop
  | start : Reachable (St.start P n)
  | step {s s' : St P n} {a : Act P n} : Reachable s → s.step a = some s' → Reachable s'

end Presync
end KickOS
