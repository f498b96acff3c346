import KickOS.Lib.Count

/-! The console of `console.cc`: who owns the UART, the bracket of its kernel writers, and who speaks on it.

A context is a thread or an interrupt, and a `Place` says how far it is in a write. Every masked span of the source is one
function here. What the hardware, the ring's fill and the capability layer answer is drawn by the caller of the model. -/

namespace KickOS
namespace Console
open Function (update update_eq_self)

/-- `ConsoleState`. -/
inductive Owner where
  | kernelOwned
  | handingOff
  | userOwned
  | reclaimed
  | panicked
  deriving DecidableEq

/-- A context that writes. -/
inductive Ctx where
  | thread (i : Nat)
  | isr (j : Nat)
  deriving DecidableEq

/-- `line_key`: all interrupts write under one key. -/
inductive Key where
  | thread (i : Nat)
  | isr
  deriving DecidableEq

def Ctx.key : Ctx → Key
  | .thread i => .thread i
  | .isr _ => .isr

/-- The flags of a write: none, `WRITE_RECORD` or `WRITE_USER`. -/
inductive Kind where
  | plain
  | record
  | user
  deriving DecidableEq

/-- What a writer offers. -/
structure Line where
  n : Nat
  kind : Kind := .plain
  deriving DecidableEq

/-- How a context took the line: by `line_write` or by `console_write_line_owned`, and what it read at its start. -/
structure Turn where
  claimed : Bool
  record : Bool
  user : Bool
  deriving DecidableEq

/-- How far a context is. From `entered` to `closing` it is inside the bracket of the chip's writers. -/
inductive Place where
  | out
  | entered (l : Line) (reclaimed : Bool)
  /-- The ring is not armed: the line is written polled. -/
  | unbuffered (l : Line)
  /-- A record that took the line, in `record_line_open`. -/
  | opening (l : Line) (t : Turn)
  /-- Between two bytes, interrupts open. -/
  | between (l : Line) (t : Turn) (sent : Nat)
  /-- A byte on the wire, masked. -/
  | putting (l : Line) (t : Turn) (sent : Nat)
  /-- The device refused a byte: the rest of the line is dropped. -/
  | stalled (l : Line) (t : Turn) (sent : Nat)
  /-- In `drain_in_producer`, its line in the ring. -/
  | draining (l : Line)
  /-- Past the transport, which answered `took`, and before its leave. -/
  | closing (l : Line) (took sent : Nat) (stalled : Bool)
  /-- The publisher, past the drain's last look or not. -/
  | handing (drained : Bool)
  deriving DecidableEq

/-- `LineState`. -/
structure LineState where
  writer : Option Key := none
  writerWakes : Bool := false
  writerUser : Bool := false
  openBy : Option Nat := none
  waiting : Bool := false
  record : Option Nat := none
  /-- A `uint16_t`. -/
  records : Nat := 0
  byte : Bool := false

/-- Which path stored at the device. -/
inductive Source where
  | writer (c : Ctx)
  | drain
  | flush
  | reclaim
  | panic
  deriving DecidableEq

/-- One store at the device, with the owner state it was made in. -/
structure Write where
  owner : Owner
  source : Source
  deriving DecidableEq

/-- One offer of a line that ended: whether it met a published console, what it answered, the bytes it gave the device,
whether it was held, what the store for a record's lines answered, and whether the device refused a byte. -/
structure Offer where
  line : Line
  published : Bool
  took : Nat
  sent : Nat
  held : Bool
  fits : Bool
  stalled : Bool
  deriving DecidableEq

/-- A line held for the driver, under its record's key, and whether its record has ended. -/
structure Held where
  key : Nat
  n : Nat
  committed : Bool
  deriving DecidableEq

structure Build where
  /-- `KICKOS_AMP_CONSOLE_CLAIM`. -/
  claim : Bool
  threads : Nat
  isrs : Nat
  threads_le : threads ≤ 254

structure State where
  owner : Owner := .kernelOwned
  driverDied : Bool := false
  chipWriters : Int := 0
  publisher : Option Nat := none
  panicClaim : Bool := false
  armed : Bool := true
  /-- The bytes queued in the ring. -/
  ring : Nat := 0
  held : List Held := []
  line : LineState := {}
  place : Ctx → Place := fun _ => .out
  live : Nat → Bool := fun _ => false
  /-- `console_record`. -/
  inRecord : Nat → Bool := fun _ => false
  /-- `console_writing`. -/
  writing : Nat → Bool := fun _ => false
  parked : Nat → Bool := fun _ => false
  /-- Its context was redirected to `kickos_thread_slay_exit`, which has not run. -/
  slain : Nat → Bool := fun _ => false
  /-- In `exit_current`. -/
  exiting : Nat → Bool := fun _ => false
  wire : List Write := []
  offers : List Offer := []

/-- Its bytes wait while a record speaks. -/
def Turn.givesWay (t : Turn) (c : Ctx) : Bool := if t.claimed then t.user else !t.record && c.key != .isr

def published (o : Owner) : Bool := o == .userOwned || o == .handingOff

namespace State

def setPlace (s : State) (c : Ctx) (p : Place) : State := { s with place := update s.place c p }

def setLine (s : State) (f : LineState → LineState) : State := { s with line := f s.line }

def store (s : State) (source : Source) : State := { s with wire := ⟨s.owner, source⟩ :: s.wire }

/-- `console_dark_wake`. -/
def darkWake (s : State) : State := { s with parked := fun _ => false }

def lineWake (s : State) : State :=
  if s.line.waiting then (s.setLine fun x => { x with waiting := false }).darkWake else s

/-- `chip_writer_mark`: an interrupt's bracket closes before any switch. -/
def chipWriterMark (s : State) (c : Ctx) (inside : Bool) : State :=
  match c with
  | .thread i => { s with writing := update s.writing i inside }
  | .isr _ => s

/-- `in_record`. -/
def keyInRecord (s : State) : Key → Bool
  | .thread i => s.inRecord i
  | .isr => false

def writerGivesWay (b : Build) (s : State) : Bool :=
  if b.claim then s.line.writerUser else s.line.writer != some .isr

/-- `line_taken`; `claimLeft` is whether a grant on the shared UART still runs. -/
def lineTaken (b : Build) (s : State) (key : Key) (claimLeft : Bool) : Bool × State :=
  if s.keyInRecord key then
    ((s.line.writer.isSome && !s.writerGivesWay b) ||
      (s.line.record.isSome && decide (s.line.record.map Key.thread ≠ some key)), s)
  else if s.line.records ≠ 0 then (true, s)
  else if s.line.writer.isSome ∧ (key = .isr ∨ s.line.writer ≠ some key) then (true, s)
  else if b.claim = false then (false, s)
  else if s.line.openBy = none ∨ s.line.openBy.map Key.thread = some key then (false, s)
  else if claimLeft then (true, s)
  else (false, (s.setLine fun x => { x with openBy := none }).lineWake)

/-- What both line writers read at their start. -/
def turnOf (s : State) (c : Ctx) (l : Line) (claimed : Bool) : Turn :=
  ⟨claimed, s.keyInRecord c.key, !s.keyInRecord c.key && c.key != .isr && l.kind == .user⟩

/-- The start of `line_write` and of `console_write_line_owned`. -/
def lineTake (b : Build) (s : State) (c : Ctx) (l : Line) (claimed claimLeft : Bool) : State :=
  let key := c.key
  let record := s.keyInRecord key
  let t := s.turnOf c l claimed
  match s.lineTaken b key claimLeft with
  | (true, s) => s.setPlace c (.closing l 0 0 false)
  | (false, s) =>
    if record then
      match c with
      | .thread i => (s.setLine fun x => { x with record := some i }).setPlace c (.opening l t)
      | .isr _ => s
    else
      (s.setLine fun x =>
        { x with
          writer := some key
          writerWakes := claimed
          writerUser := if claimed then t.user else x.writerUser }).setPlace c (.between l t 0)

/-- The end of `line_write`. -/
def claimedEnd (s : State) (c : Ctx) (t : Turn) (claimLeft : Bool) : State :=
  if t.record then (s.setLine fun x => { x with record := none }).lineWake
  else
    match c with
    | .thread i =>
      (s.setLine fun x =>
        { x with
          writer := none
          openBy := if claimLeft then some i else if x.openBy = some i then none else x.openBy }).lineWake
    | .isr _ => (s.setLine fun x => { x with writer := none }).lineWake

/-- The end of `console_write_line_owned`, which wakes nobody. -/
def ownedEnd (s : State) (t : Turn) : State :=
  s.setLine fun x => if t.record then { x with record := none } else { x with writer := none }

/-- The end of a write, and its answer: a polled line is answered whole, a claimed one as far as it went. -/
def lineEnd (s : State) (c : Ctx) (l : Line) (t : Turn) (sent : Nat) (stalled claimLeft : Bool) : State :=
  if t.claimed then (s.claimedEnd c t claimLeft).setPlace c (.closing l sent sent stalled)
  else (s.ownedEnd t).setPlace c (.closing l l.n sent stalled)

/-- The record of the interrupt is the current thread's. -/
def heldKey (current : Nat) : Ctx → Nat
  | .thread i => i
  | .isr _ => current

/-- `chip_writer_enter`; `serves` is `cap_console_serves`, `fits` whether the store takes a record's line, `current` the
thread an interrupt came over, `room` how many bytes the device takes of a panic's line. An offer that does not enter ends at
once; a panic's writer stores it uncounted. -/
def chipWriterEnter (s : State) (c : Ctx) (l : Line) (serves fits : Bool) (current room : Nat) : State :=
  if s.owner = .panicked then
    { s.store .panic with offers := ⟨l, false, l.n, min room l.n, false, fits, decide (room < l.n)⟩ :: s.offers }
  else if published s.owner then
    if l.kind = .user ∧ (serves ∨ s.driverDied) then { s with offers := ⟨l, true, 0, 0, false, fits, false⟩ :: s.offers }
    else if l.kind = .record ∧ fits then
      { s with
        held := s.held ++ [⟨heldKey current c, l.n, false⟩]
        offers := ⟨l, true, l.n, 0, true, fits, false⟩ :: s.offers }
    else { s with offers := ⟨l, true, l.n, 0, false, fits, false⟩ :: s.offers }
  else
    (({ s with chipWriters := s.chipWriters + 1 } : State).chipWriterMark c true).setPlace c
      (.entered l (s.owner == .reclaimed))

def chipWriterLeave (s : State) (c : Ctx) : State :=
  let s := s.chipWriterMark c false
  let s := { s with chipWriters := s.chipWriters - 1 }
  if s.chipWriters = 0 ∧ s.publisher ≠ none then s.darkWake else s

/-- `queue_line` of `console_tx.cc`; `room` is whether the ring takes the line. -/
def queueLine (s : State) (c : Ctx) (l : Line) (room : Bool) : State :=
  if l.n = 0 then s.setPlace c (.closing l 0 0 false)
  else if s.armed = false then s.setPlace c (.unbuffered l)
  else if room then ({ s with ring := s.ring + l.n } : State).setPlace c (.draining l)
  else s.setPlace c (.closing l 0 0 false)

def push (s : State) (source : Source) : State := { s.store source with ring := s.ring - 1 }

/-- `console_tx_flush_sync`. -/
def txFlush (s : State) (source : Source) : State :=
  if s.armed = false ∨ s.ring = 0 then s else { s.store source with ring := 0 }

/-- `console_held_flush_sync`. -/
def heldFlush (s : State) (source : Source) : State :=
  if s.held = [] then s else { s.store source with held := [] }

/-- `console_flush_then_reclaim`. -/
def flushThenReclaim (s : State) (source : Source) : State := (s.store source).heldFlush source

def handoverRefused (s : State) : Bool := s.owner == .handingOff || s.owner == .panicked

/-- `console_tx_deinit`. -/
def txDeinit (s : State) : State := { s.txFlush .flush with armed := false }

def handoverBegin (s : State) (p : Nat) : State :=
  ({ s with driverDied := false, owner := .handingOff, publisher := some p } : State).txDeinit

/-- `console_on_driver_death`; `free` is whether nobody holds the registers. -/
def onDriverDeath (s : State) (free : Bool) : State :=
  if s.driverDied = false ∨ s.owner = .handingOff then s
  else if free = false then s
  else
    let s := { s with driverDied := false }
    if s.owner ≠ .userOwned then s
    else (({ s with owner := .reclaimed } : State).flushThenReclaim .reclaim).darkWake

/-- `kpanic_enter`. -/
def kpanicEnter (s : State) : State :=
  if s.owner = .panicked ∧ s.armed = false then s
  else
    let s := if s.panicClaim = false ∧ s.owner ≠ .reclaimed then s.flushThenReclaim .panic else s
    let s := s.txFlush .panic
    { s with panicClaim := true, armed := false, owner := .panicked }

/-- `kpanic_enter_unlocked`. -/
def kpanicEnterUnlocked (s : State) : State :=
  let seen := s.owner
  let first := s.panicClaim
  let s := { s with armed := false, owner := .panicked, panicClaim := true }
  if first = false ∧ seen ≠ .reclaimed then s.store .panic else s

/-- `console_owner_set_user`: a writer still counted is a panic. -/
def ownerSetUser (s : State) (free : Bool) : State :=
  if s.chipWriters ≠ 0 then s.kpanicEnter
  else
    let s := { s with publisher := none }
    if s.owner ≠ .handingOff then s
    else
      let s := { s with owner := .userOwned }
      if s.driverDied then s.onDriverDeath free else s.darkWake

def recordBegin (s : State) (i : Nat) : State :=
  if s.inRecord i then s
  else
    { s with
      inRecord := update s.inRecord i true
      line := { s.line with records := (s.line.records + 1) % 65536 } }

def recordEnd (s : State) (i : Nat) : State :=
  if s.inRecord i = false then s
  else
    ({ s with
      inRecord := update s.inRecord i false
      line := { s.line with records := (s.line.records + 65535) % 65536 } } : State).lineWake

/-- `krecord_end`; `deliver` is whether the driver takes what is committed at once. -/
def krecordEnd (s : State) (i : Nat) (deliver : Bool) : State :=
  let s := s.recordEnd i
  let s : State := { s with held := s.held.map fun h => if h.key = i then { h with committed := true } else h }
  if deliver ∧ s.owner ≠ .reclaimed ∧ s.owner ≠ .panicked then { s with held := s.held.filter fun h => !h.committed } else s

/-- The bracket a slain thread died inside. -/
def slainBracket (s : State) (i : Nat) : State := if s.writing i then s.chipWriterLeave (.thread i) else s

def slainWriter (s : State) (i : Nat) : State :=
  if s.line.writer = some (.thread i) then (s.setLine fun x => { x with writer := none }).lineWake else s

def slainOpen (b : Build) (s : State) (i : Nat) : State :=
  if b.claim ∧ s.line.openBy = some i then (s.setLine fun x => { x with openBy := none }).lineWake else s

/-- The hand-over a slain thread was in. -/
def slainHandover (s : State) (i : Nat) : State :=
  if s.publisher = some i ∧ s.owner = .handingOff then
    (({ s with publisher := none, owner := .reclaimed } : State).heldFlush .reclaim).darkWake
  else s

/-- `kconsole_slain`, of the slain thread `i`. -/
def kconsoleSlain (b : Build) (s : State) (i : Nat) : State :=
  let s := s.recordEnd i
  let s := { s with held := s.held.filter fun h => h.key ≠ i ∨ h.committed }
  (((s.slainBracket i).slainWriter i).slainOpen b i).slainHandover i

theorem lineWake_eq (s : State) : ∃ w p, s.lineWake = { s with line := { s.line with waiting := w }, parked := p } := by
  rw [lineWake]
  split_ifs
  · exact ⟨_, _, rfl⟩
  · exact ⟨s.line.waiting, s.parked, rfl⟩

theorem lineTaken_eq (b : Build) (s : State) (key : Key) (claimLeft : Bool) :
    ∃ o w p, (s.lineTaken b key claimLeft).2 = { s with line := { s.line with openBy := o, waiting := w }, parked := p } ∧
      (o = s.line.openBy ∨ o = none) := by
  have hsame : ∃ o w p, s = { s with line := { s.line with openBy := o, waiting := w }, parked := p } ∧
      (o = s.line.openBy ∨ o = none) := ⟨s.line.openBy, s.line.waiting, s.parked, rfl, .inl rfl⟩
  unfold lineTaken
  split_ifs
  · exact hsame
  · exact hsame
  · exact hsame
  · exact hsame
  · exact hsame
  · exact hsame
  · obtain ⟨w, p, hw⟩ := lineWake_eq (s.setLine fun x => { x with openBy := none })
    exact ⟨none, w, p, hw, .inr rfl⟩

theorem lineTake_cases (b : Build) (s : State) (c : Ctx) (l : Line) (claimed claimLeft : Bool) :
    ∃ o w p, (o = s.line.openBy ∨ o = none) ∧
      ((s.lineTake b c l claimed claimLeft =
          ({ s with line := { s.line with openBy := o, waiting := w }, parked := p } : State).setPlace c (.closing l 0 0 false)) ∨
        (∃ i, c = .thread i ∧ s.inRecord i = true ∧ s.lineTake b c l claimed claimLeft =
          ({ s with line := { s.line with openBy := o, waiting := w, record := some i }, parked := p } : State).setPlace c
            (.opening l (s.turnOf c l claimed))) ∨
        (s.keyInRecord c.key = false ∧ ∃ u, s.lineTake b c l claimed claimLeft =
          ({ s with
              line := { s.line with openBy := o, waiting := w, writer := some c.key, writerWakes := claimed, writerUser := u }
              parked := p } : State).setPlace c (.between l (s.turnOf c l claimed) 0))) := by
  obtain ⟨o, w, p, heq, ho⟩ := lineTaken_eq b s c.key claimLeft
  refine ⟨o, w, p, ho, ?_⟩
  unfold lineTake
  cases hr : s.lineTaken b c.key claimLeft with
  | mk taken u =>
    rw [hr] at heq
    dsimp only at heq ⊢
    rw [hr, heq]
    cases taken with
    | true => exact .inl rfl
    | false =>
      dsimp only
      cases hk : s.keyInRecord c.key with
      | true =>
        cases c with
        | thread i => exact .inr (.inl ⟨i, rfl, hk, by simp only [turnOf, hk]; rfl⟩)
        | isr j => cases hk
      | false => exact .inr (.inr ⟨rfl, _, by simp only [turnOf, hk]; rfl⟩)

theorem claimedEnd_eq (s : State) (c : Ctx) (t : Turn) (claimLeft : Bool) :
    ∃ x w p, s.claimedEnd c t claimLeft = { s with line := { x with waiting := w }, parked := p } ∧
      ((t.record = true ∧ x = { s.line with record := none }) ∨
        (t.record = false ∧ ∃ o, x = { s.line with writer := none, openBy := o } ∧
          (o = s.line.openBy ∨ o = none ∨ ∃ i, c = .thread i ∧ o = some i))) := by
  unfold claimedEnd
  cases ht : t.record with
  | true =>
    obtain ⟨w, p, hw⟩ := lineWake_eq (s.setLine fun x => { x with record := none })
    exact ⟨_, w, p, hw, .inl ⟨rfl, rfl⟩⟩
  | false =>
    cases c with
    | thread i =>
      obtain ⟨w, p, hw⟩ := lineWake_eq (s.setLine fun x => { x with
        writer := none, openBy := if claimLeft then some i else if x.openBy = some i then none else x.openBy })
      refine ⟨_, w, p, hw, .inr ⟨rfl, _, rfl, ?_⟩⟩
      split_ifs
      · exact .inr (.inr ⟨i, rfl, rfl⟩)
      · exact .inr (.inl rfl)
      · exact .inl rfl
    | isr j =>
      obtain ⟨w, p, hw⟩ := lineWake_eq (s.setLine fun x => { x with writer := none })
      exact ⟨_, w, p, hw, .inr ⟨rfl, s.line.openBy, rfl, .inl rfl⟩⟩

theorem recordEnd_count (s : State) (i n : Nat) : ∃ w p,
    (if s.inRecord i = false then s
    else ({ s with inRecord := update s.inRecord i false, line := { s.line with records := n } } : State).lineWake) =
    { s with
      inRecord := update s.inRecord i false
      line := { s.line with records := if s.inRecord i then n else s.line.records, waiting := w }
      parked := p } := by
  rcases Bool.eq_false_or_eq_true (s.inRecord i) with hr | hr
  · obtain ⟨w, p, hw⟩ := lineWake_eq { s with
      inRecord := update s.inRecord i false
      line := { s.line with records := n } }
    refine ⟨w, p, ?_⟩
    rw [if_neg (by rw [hr]; exact Bool.noConfusion), if_pos hr]
    exact hw
  · have hself : update s.inRecord i false = s.inRecord := by
      rw [← hr, update_eq_self]
    refine ⟨s.line.waiting, s.parked, ?_⟩
    rw [if_pos hr, hself, if_neg (by rw [hr]; exact Bool.false_ne_true)]

theorem recordEnd_eq (s : State) (i : Nat) : ∃ w p, s.recordEnd i =
    { s with
      inRecord := update s.inRecord i false
      line := { s.line with
        records := if s.inRecord i then (s.line.records + 65535) % 65536 else s.line.records
        waiting := w }
      parked := p } := by
  unfold recordEnd
  exact recordEnd_count s i _

theorem heldFlush_eq (s : State) (source : Source) : ∃ w l, s.heldFlush source = { s with wire := w, held := l } := by
  rw [heldFlush]
  split_ifs
  · exact ⟨s.wire, s.held, rfl⟩
  · exact ⟨_, _, rfl⟩

theorem flushThenReclaim_eq (s : State) (source : Source) :
    ∃ w l, s.flushThenReclaim source = { s with wire := w, held := l } := heldFlush_eq (s.store source) source

theorem txFlush_eq (s : State) (source : Source) : ∃ w n, s.txFlush source = { s with wire := w, ring := n } ∧
    (s.armed = true → n = 0) ∧ (s.armed = false → n = s.ring) := by
  rw [txFlush]
  split_ifs with h
  · refine ⟨s.wire, s.ring, rfl, fun ha => ?_, fun _ => rfl⟩
    rcases h with h | h
    · rw [ha] at h
      cases h
    · exact h
  · rw [not_or] at h
    exact ⟨_, 0, rfl, fun _ => rfl, fun hk => absurd hk h.1⟩

theorem onDriverDeath_eq (s : State) (free : Bool) : ∃ d o w l p, s.onDriverDeath free =
    { s with driverDied := d, owner := o, wire := w, held := l, parked := p } := by
  unfold onDriverDeath
  split_ifs
  · exact ⟨s.driverDied, s.owner, s.wire, s.held, s.parked, rfl⟩
  · exact ⟨s.driverDied, s.owner, s.wire, s.held, s.parked, rfl⟩
  · dsimp only
    split_ifs
    · exact ⟨_, s.owner, s.wire, s.held, s.parked, rfl⟩
    · obtain ⟨w, l, h⟩ := flushThenReclaim_eq { s with driverDied := false, owner := .reclaimed } .reclaim
      rw [h]
      exact ⟨_, _, w, l, _, rfl⟩

theorem kpanicEnter_eq (s : State) : ∃ c a o w l n, s.kpanicEnter =
    { s with panicClaim := c, armed := a, owner := o, wire := w, held := l, ring := n } := by
  unfold kpanicEnter
  split_ifs
  · exact ⟨s.panicClaim, s.armed, s.owner, s.wire, s.held, s.ring, rfl⟩
  · obtain ⟨w, l, h⟩ := flushThenReclaim_eq s .panic
    obtain ⟨w', n, h', -⟩ := txFlush_eq { s with wire := w, held := l } .panic
    dsimp only
    rw [h, h']
    exact ⟨_, _, _, w', l, n, rfl⟩
  · obtain ⟨w, n, h, -⟩ := txFlush_eq s .panic
    dsimp only
    rw [h]
    exact ⟨_, _, _, w, s.held, n, rfl⟩

theorem kpanicEnterUnlocked_eq (s : State) : ∃ w, s.kpanicEnterUnlocked =
    { s with armed := false, owner := .panicked, panicClaim := true, wire := w } := by
  unfold kpanicEnterUnlocked
  dsimp only
  split_ifs
  · exact ⟨_, rfl⟩
  · exact ⟨s.wire, rfl⟩

theorem ownerSetUser_eq (s : State) (free : Bool) : ∃ d o q c a w l n p, s.ownerSetUser free =
    { s with
      driverDied := d, owner := o, publisher := q, panicClaim := c, armed := a, wire := w, held := l, ring := n,
        parked := p } := by
  unfold ownerSetUser
  split_ifs
  · obtain ⟨c, a, o, w, l, n, h⟩ := kpanicEnter_eq s
    rw [h]
    exact ⟨s.driverDied, o, s.publisher, c, a, w, l, n, s.parked, rfl⟩
  · dsimp only
    split_ifs
    · exact ⟨s.driverDied, s.owner, none, s.panicClaim, s.armed, s.wire, s.held, s.ring, s.parked, rfl⟩
    · obtain ⟨d, o, w, l, p, h⟩ := onDriverDeath_eq { s with publisher := none, owner := .userOwned } free
      rw [h]
      exact ⟨d, o, none, s.panicClaim, s.armed, w, l, s.ring, p, rfl⟩
    · exact ⟨s.driverDied, _, none, s.panicClaim, s.armed, s.wire, s.held, s.ring, _, rfl⟩

theorem handoverBegin_eq (s : State) (p : Nat) : ∃ w n, s.handoverBegin p =
    { s with
      driverDied := false, owner := .handingOff, publisher := some p, wire := w, ring := n, armed := false } := by
  obtain ⟨w, n, h, -⟩ := txFlush_eq { s with driverDied := false, owner := .handingOff, publisher := some p } .flush
  rw [handoverBegin, txDeinit, h]
  exact ⟨w, n, rfl⟩

theorem krecordEnd_eq (s : State) (i : Nat) (deliver : Bool) : ∃ l w p, s.krecordEnd i deliver =
    { s with
      inRecord := update s.inRecord i false
      line := { s.line with
        records := if s.inRecord i then (s.line.records + 65535) % 65536 else s.line.records
        waiting := w }
      held := l
      parked := p } := by
  obtain ⟨w, p, h⟩ := recordEnd_eq s i
  unfold krecordEnd
  rw [h]
  dsimp only
  by_cases hd : deliver = true ∧ s.owner ≠ .reclaimed ∧ s.owner ≠ .panicked
  · rw [if_pos hd]
    exact ⟨_, w, p, rfl⟩
  · rw [if_neg hd]
    exact ⟨_, w, p, rfl⟩

/-- The line behind the slay of thread `i`: it writes no more and its open line ends, but a record's line stays as it was. -/
def slainLine (b : Build) (x : LineState) (i : Nat) (inRecord waiting : Bool) : LineState :=
  { x with
    writer := if x.writer = some (.thread i) then none else x.writer
    openBy := if b.claim ∧ x.openBy = some i then none else x.openBy
    records := if inRecord then (x.records + 65535) % 65536 else x.records
    waiting := waiting }

theorem chipWriterLeave_eq (s : State) (c : Ctx) : ∃ p, s.chipWriterLeave c =
    { s with chipWriters := s.chipWriters - 1, writing := (s.chipWriterMark c false).writing, parked := p } := by
  cases c with
  | thread i =>
    unfold chipWriterLeave chipWriterMark
    dsimp only
    split_ifs <;> exact ⟨_, rfl⟩
  | isr j =>
    unfold chipWriterLeave chipWriterMark
    dsimp only
    split_ifs <;> exact ⟨_, rfl⟩

theorem slainBracket_eq (s : State) (i : Nat) : ∃ p, s.slainBracket i =
    { s with
      chipWriters := if s.writing i then s.chipWriters - 1 else s.chipWriters
      writing := if s.writing i then update s.writing i false else s.writing
      parked := p } := by
  rw [slainBracket]
  split_ifs
  · exact chipWriterLeave_eq s (.thread i)
  · exact ⟨s.parked, rfl⟩

theorem slainWriter_eq (s : State) (i : Nat) : ∃ w p, s.slainWriter i =
    { s with
      line := { s.line with
        writer := if s.line.writer = some (.thread i) then none else s.line.writer
        waiting := w }
      parked := p } := by
  rw [slainWriter]
  split_ifs
  · exact lineWake_eq (s.setLine fun x => { x with writer := none })
  · exact ⟨s.line.waiting, s.parked, rfl⟩

theorem slainOpen_eq (b : Build) (s : State) (i : Nat) : ∃ w p, s.slainOpen b i =
    { s with
      line := { s.line with
        openBy := if b.claim ∧ s.line.openBy = some i then none else s.line.openBy
        waiting := w }
      parked := p } := by
  rw [slainOpen]
  split_ifs
  · exact lineWake_eq (s.setLine fun x => { x with openBy := none })
  · exact ⟨s.line.waiting, s.parked, rfl⟩

/-- What the exit of a slain thread leaves: its record, its count and its lines, before the hand-over is looked at. -/
def slainFields (b : Build) (s : State) (i : Nat) (w : Bool) (l : List Held) (p : Nat → Bool) : State :=
  { s with
    inRecord := update s.inRecord i false
    line := slainLine b s.line i (s.inRecord i) w
    held := l
    parked := p
    chipWriters := if s.writing i then s.chipWriters - 1 else s.chipWriters
    writing := if s.writing i then update s.writing i false else s.writing }

theorem kconsoleSlain_eq (b : Build) (s : State) (i : Nat) :
    ∃ w l p, s.kconsoleSlain b i = (s.slainFields b i w l p).slainHandover i := by
  obtain ⟨w1, p1, h1⟩ := recordEnd_eq s i
  unfold kconsoleSlain
  rw [h1]
  dsimp only
  generalize hl : (s.held.filter fun h => decide (h.key ≠ i ∨ h.committed = true)) = l
  obtain ⟨p2, h2⟩ := slainBracket_eq { s with
      inRecord := update s.inRecord i false
      line := { s.line with
        records := if s.inRecord i then (s.line.records + 65535) % 65536 else s.line.records
        waiting := w1 }
      held := l
      parked := p1 } i
  rw [h2]
  generalize hu : ({ s with
      inRecord := update s.inRecord i false
      line := { s.line with
        records := if s.inRecord i then (s.line.records + 65535) % 65536 else s.line.records
        waiting := w1 }
      held := l
      parked := p2
      chipWriters := if s.writing i then s.chipWriters - 1 else s.chipWriters
      writing := if s.writing i then update s.writing i false else s.writing } : State) = u
  obtain ⟨w3, p3, h3⟩ := slainWriter_eq u i
  obtain ⟨w4, p4, h4⟩ := slainOpen_eq b (u.slainWriter i) i
  rw [h4, h3, ← hu]
  exact ⟨w4, l, p4, rfl⟩

end State
end Console
end KickOS
