import KickOS.Console.Model

/-! Runs of the console: threads and interrupts that write, a publish, the driver's death, slays and exits, in any order.

Each action is one masked span. A slay claims a thread's next resume wherever interrupts are open, and the thread's exit
stub, `kickos_thread_slay_exit`, runs later. -/

namespace KickOS
namespace Console
open Function (update)

inductive Act where
  /-- `console_emit` up to the entry of the bracket. -/
  | enter (c : Ctx) (l : Line) (serves fits : Bool) (current room : Nat)
  | queue (c : Ctx) (room : Bool)
  /-- The take of `line_write` or `console_write_line_owned`. -/
  | take (c : Ctx) (claimLeft : Bool)
  /-- `record_line_open` is through. -/
  | opened (c : Ctx)
  | put (c : Ctx)
  | stored (c : Ctx) (stored : Bool)
  | finish (c : Ctx) (claimLeft : Bool)
  /-- A byte of `drain_in_producer`. -/
  | drain (c : Ctx)
  | drained (c : Ctx)
  | leave (c : Ctx)
  /-- A byte of `console_tx_isr`. -/
  | txIsr
  | recordBegin (i : Nat)
  | recordEnd (i : Nat) (deliver : Bool)
  /-- The look of `kconsole_record_wait`. -/
  | ask (i : Nat) (claimLeft : Bool)
  /-- `console_park` on another context's line. -/
  | parkLine (i : Nat) (claimLeft : Bool)
  /-- `console_park` on anything else. -/
  | park (i : Nat)
  /-- A wake, or the end of the park's time. -/
  | wake (i : Nat)
  | publish (p : Nat)
  /-- `console_publish_drain` is through. -/
  | looked (p : Nat)
  | setUser (p : Nat) (free : Bool)
  /-- `cap_console_task_ended`. -/
  | driverEnded (free : Bool)
  /-- The retry at a thread's exit. -/
  | retry (free : Bool)
  | panic
  | panicUnlocked
  | panicWrite
  | slay (i : Nat)
  | slayExit (i : Nat)
  | exit (i : Nat)
  | spawn (i : Nat)
  deriving DecidableEq

namespace State

def canRun (b : Build) (s : State) : Ctx → Bool
  | .thread i => decide (i < b.threads) && s.live i && !s.slain i && !s.exiting i && !s.parked i
  | .isr j => decide (j < b.isrs)

/-- A thread writes a record's line, which is never empty, inside its record and nothing else there. -/
def mayOffer (s : State) (c : Ctx) (l : Line) : Bool :=
  s.place c == .out && (l.kind != .record || decide (0 < l.n)) &&
    match c with
    | .thread i => s.inRecord i == (l.kind == .record)
    | .isr _ => true

/-- Which of the two line writers a context is about to enter. -/
def lineAhead (b : Build) : Place → Option (Line × Bool)
  | .entered l false => if b.claim then some (l, true) else none
  | .unbuffered l => some (l, false)
  | _ => none

/-- A line ends behind its last byte or at a refused one. -/
def lineEnding : Place → Option (Line × Turn × Nat × Bool)
  | .between l t n => if n = l.n then some (l, t, n, false) else none
  | .stalled l t n => some (l, t, n, true)
  | _ => none

def putting : Place → Bool
  | .putting _ _ _ => true
  | _ => false

def mayPark : Place → Bool
  | .out => true
  | .handing false => true
  | _ => false

def enabled (b : Build) (s : State) : Act → Bool
  | .enter c l _ _ _ _ => s.canRun b c && s.mayOffer c l
  | .queue c _ => s.canRun b c &&
      match s.place c with
      | .entered _ r => r || !b.claim
      | _ => false
  | .take c _ => s.canRun b c && (lineAhead b (s.place c)).isSome
  | .opened c => s.canRun b c && !s.line.byte &&
      match s.place c with
      | .opening _ _ => true
      | _ => false
  | .put c => s.canRun b c &&
      match s.place c with
      | .between l t n => decide (n < l.n) && (!t.givesWay c || s.line.records == 0)
      | _ => false
  | .stored c _ => s.canRun b c && putting (s.place c)
  | .finish c _ => s.canRun b c && (lineEnding (s.place c)).isSome
  | .drain c => s.canRun b c && decide (0 < s.ring) &&
      match s.place c with
      | .draining _ => true
      | _ => false
  | .drained c => s.canRun b c &&
      match s.place c with
      | .draining _ => true
      | _ => false
  | .leave c => s.canRun b c &&
      match s.place c with
      | .closing _ _ _ _ => true
      | _ => false
  | .txIsr => decide (0 < s.ring)
  | .recordBegin i => s.canRun b (.thread i) && s.place (.thread i) == .out
  | .recordEnd i _ => s.canRun b (.thread i) && s.place (.thread i) == .out
  | .ask i _ => s.canRun b (.thread i) && s.place (.thread i) == .out
  | .parkLine i claimLeft => s.canRun b (.thread i) && s.place (.thread i) == .out &&
      (s.lineTaken b (.thread i) claimLeft).1
  | .park i => s.canRun b (.thread i) && mayPark (s.place (.thread i))
  | .wake i => s.parked i
  | .publish p => s.canRun b (.thread p) && s.place (.thread p) == .out && !s.inRecord p && !s.handoverRefused
  | .looked p => s.canRun b (.thread p) && s.place (.thread p) == .handing false && s.chipWriters == 0
  | .setUser p _ => s.canRun b (.thread p) && s.place (.thread p) == .handing true
  | .driverEnded _ => true
  | .retry _ => true
  | .panic => true
  | .panicUnlocked => true
  | .panicWrite => s.owner == .panicked
  | .slay i => decide (i < b.threads) && s.live i && !s.slain i && !s.exiting i && !putting (s.place (.thread i))
  | .slayExit i => s.slain i
  | .exit i => s.live i && (s.exiting i || s.canRun b (.thread i) && s.place (.thread i) == .out && !s.inRecord i)
  | .spawn i => decide (i < b.threads) && !s.live i

/-- The byte of a writer that gives way, put and stored. -/
def putByte (s : State) (c : Ctx) : State :=
  match s.place c with
  | .between l t n =>
    (if t.givesWay c then s.setLine fun x => { x with byte := true } else s).setPlace c (.putting l t n)
  | _ => s

def storeByte (s : State) (c : Ctx) (stored : Bool) : State :=
  match s.place c with
  | .putting l t n =>
    let s := if t.givesWay c then s.setLine fun x => { x with byte := false } else s
    if stored then (s.store (.writer c)).setPlace c (.between l t (n + 1)) else s.setPlace c (.stalled l t n)
  | _ => s

def leaveOffer (s : State) (c : Ctx) : State :=
  match s.place c with
  | .closing l took sent stalled =>
    let s := (s.chipWriterLeave c).setPlace c .out
    { s with offers := ⟨l, false, took, sent, false, false, stalled⟩ :: s.offers }
  | _ => s

def slayExit (b : Build) (s : State) (i : Nat) : State :=
  let s := (s.kconsoleSlain b i).setPlace (.thread i) .out
  { s with slain := update s.slain i false, exiting := update s.exiting i true }

/-- A new thread in slot `i`. -/
def spawn (s : State) (i : Nat) : State :=
  let s := s.setPlace (.thread i) .out
  { s with
    live := update s.live i true
    inRecord := update s.inRecord i false
    writing := update s.writing i false
    parked := update s.parked i false
    slain := update s.slain i false
    exiting := update s.exiting i false }

def next (b : Build) (s : State) : Act → State
  | .enter c l serves fits current room => s.chipWriterEnter c l serves fits current room
  | .queue c room =>
    match s.place c with
    | .entered l _ => s.queueLine c l room
    | _ => s
  | .take c claimLeft =>
    match lineAhead b (s.place c) with
    | some (l, claimed) => s.lineTake b c l claimed claimLeft
    | none => s
  | .opened c =>
    match s.place c with
    | .opening l t => s.setPlace c (.between l t 0)
    | _ => s
  | .put c => s.putByte c
  | .stored c stored => s.storeByte c stored
  | .finish c claimLeft =>
    match lineEnding (s.place c) with
    | some (l, t, n, stalled) => s.lineEnd c l t n stalled claimLeft
    | none => s
  | .drain c => s.push (.writer c)
  | .drained c =>
    match s.place c with
    | .draining l => s.setPlace c (.closing l l.n l.n false)
    | _ => s
  | .leave c => s.leaveOffer c
  | .txIsr => s.push .drain
  | .recordBegin i => s.recordBegin i
  | .recordEnd i deliver => s.krecordEnd i deliver
  | .ask i claimLeft => (s.lineTaken b (.thread i) claimLeft).2
  | .parkLine i claimLeft =>
    let s := (s.lineTaken b (.thread i) claimLeft).2.setLine fun x => { x with waiting := true }
    { s with parked := update s.parked i true }
  | .park i => { s with parked := update s.parked i true }
  | .wake i => { s with parked := update s.parked i false }
  | .publish p => (s.handoverBegin p).setPlace (.thread p) (.handing false)
  | .looked p => s.setPlace (.thread p) (.handing true)
  | .setUser p free => (s.setPlace (.thread p) .out).ownerSetUser free
  | .driverEnded free => ({ s with driverDied := true } : State).onDriverDeath free
  | .retry free => s.onDriverDeath free
  | .panic => s.kpanicEnter
  | .panicUnlocked => s.kpanicEnterUnlocked
  | .panicWrite => s.store .panic
  | .slay i => { s with slain := update s.slain i true, parked := update s.parked i false }
  | .slayExit i => s.slayExit b i
  | .exit i => { s with live := update s.live i false, exiting := update s.exiting i false }
  | .spawn i => s.spawn i

section
variable {b : Build} {s : State} {c : Ctx}

/-! What an action that reads its context's place finds there, and does. -/

theorem queue_cases {room : Bool} (ha : s.enabled b (.queue c room) = true) : s.canRun b c = true ∧
    ∃ l r, s.place c = .entered l r ∧ s.next b (.queue c room) = s.queueLine c l room := by
  unfold enabled at ha
  simp only [Bool.and_eq_true] at ha
  obtain ⟨hr, hp⟩ := ha
  refine ⟨hr, ?_⟩
  unfold next
  dsimp only
  cases h : s.place c with
  | entered l r => exact ⟨l, r, rfl, rfl⟩
  | _ =>
    rw [h] at hp
    cases hp

theorem take_cases {claimLeft : Bool} (ha : s.enabled b (.take c claimLeft) = true) : s.canRun b c = true ∧
    ∃ l claimed, lineAhead b (s.place c) = some (l, claimed) ∧
      s.next b (.take c claimLeft) = s.lineTake b c l claimed claimLeft := by
  unfold enabled at ha
  simp only [Bool.and_eq_true] at ha
  obtain ⟨hr, hp⟩ := ha
  refine ⟨hr, ?_⟩
  unfold next
  dsimp only
  cases h : lineAhead b (s.place c) with
  | some x => exact ⟨x.1, x.2, rfl, rfl⟩
  | none =>
    rw [h] at hp
    cases hp

theorem opened_cases (ha : s.enabled b (.opened c) = true) : s.canRun b c = true ∧ s.line.byte = false ∧
    ∃ l t, s.place c = .opening l t ∧ s.next b (.opened c) = s.setPlace c (.between l t 0) := by
  unfold enabled at ha
  simp only [Bool.and_eq_true, Bool.not_eq_true'] at ha
  obtain ⟨⟨hr, hb⟩, hp⟩ := ha
  refine ⟨hr, hb, ?_⟩
  unfold next
  dsimp only
  cases h : s.place c with
  | opening l t => exact ⟨l, t, rfl, rfl⟩
  | _ =>
    rw [h] at hp
    cases hp

theorem put_cases (ha : s.enabled b (.put c) = true) : s.canRun b c = true ∧
    ∃ l t n, s.place c = .between l t n ∧ n < l.n ∧ (t.givesWay c = true → s.line.records = 0) := by
  unfold enabled at ha
  simp only [Bool.and_eq_true] at ha
  obtain ⟨hr, hp⟩ := ha
  refine ⟨hr, ?_⟩
  cases h : s.place c with
  | between l t n =>
    rw [h] at hp
    simp only [Bool.and_eq_true, decide_eq_true_eq, Bool.or_eq_true, Bool.not_eq_true', beq_iff_eq] at hp
    refine ⟨l, t, n, rfl, hp.1, fun hg => hp.2.resolve_left ?_⟩
    rw [hg]
    exact fun hk => by cases hk
  | _ =>
    rw [h] at hp
    cases hp

theorem stored_cases {stored : Bool} (ha : s.enabled b (.stored c stored) = true) : s.canRun b c = true ∧
    ∃ l t n, s.place c = .putting l t n := by
  unfold enabled at ha
  simp only [Bool.and_eq_true] at ha
  obtain ⟨hr, hp⟩ := ha
  refine ⟨hr, ?_⟩
  cases h : s.place c with
  | putting l t n => exact ⟨l, t, n, rfl⟩
  | _ =>
    rw [h] at hp
    cases hp

theorem finish_cases {claimLeft : Bool} (ha : s.enabled b (.finish c claimLeft) = true) : s.canRun b c = true ∧
    ∃ l t n stalled, lineEnding (s.place c) = some (l, t, n, stalled) ∧
      s.next b (.finish c claimLeft) = s.lineEnd c l t n stalled claimLeft := by
  unfold enabled at ha
  simp only [Bool.and_eq_true] at ha
  obtain ⟨hr, hp⟩ := ha
  refine ⟨hr, ?_⟩
  unfold next
  dsimp only
  cases h : lineEnding (s.place c) with
  | some x => exact ⟨x.1, x.2.1, x.2.2.1, x.2.2.2, rfl, rfl⟩
  | none =>
    rw [h] at hp
    cases hp

theorem drain_cases (ha : s.enabled b (.drain c) = true) : s.canRun b c = true ∧ 0 < s.ring ∧
    ∃ l, s.place c = .draining l := by
  unfold enabled at ha
  simp only [Bool.and_eq_true, decide_eq_true_eq] at ha
  obtain ⟨⟨hr, hn⟩, hp⟩ := ha
  refine ⟨hr, hn, ?_⟩
  cases h : s.place c with
  | draining l => exact ⟨l, rfl⟩
  | _ =>
    rw [h] at hp
    cases hp

theorem drained_cases (ha : s.enabled b (.drained c) = true) : s.canRun b c = true ∧
    ∃ l, s.place c = .draining l ∧ s.next b (.drained c) = s.setPlace c (.closing l l.n l.n false) := by
  unfold enabled at ha
  simp only [Bool.and_eq_true] at ha
  obtain ⟨hr, hp⟩ := ha
  refine ⟨hr, ?_⟩
  unfold next
  dsimp only
  cases h : s.place c with
  | draining l => exact ⟨l, rfl, rfl⟩
  | _ =>
    rw [h] at hp
    cases hp

theorem leave_cases (ha : s.enabled b (.leave c) = true) : s.canRun b c = true ∧
    ∃ l took sent stalled, s.place c = .closing l took sent stalled := by
  unfold enabled at ha
  simp only [Bool.and_eq_true] at ha
  obtain ⟨hr, hp⟩ := ha
  refine ⟨hr, ?_⟩
  cases h : s.place c with
  | closing l took sent stalled => exact ⟨l, took, sent, stalled, rfl⟩
  | _ =>
    rw [h] at hp
    cases hp

end

end State

/-- The states of the runs whose actions all meet `ok`; at boot the ring may be armed. -/
inductive Reach (b : Build) (ok : State → Act → Prop) : State → Prop where
  | boot (armed : Bool) : Reach b ok { armed := armed }
  | step {s : State} (hs : Reach b ok s) (a : Act) (ha : s.enabled b a = true) (hok : ok s a) : Reach b ok (s.next b a)

def Reachable (b : Build) : State → Prop := Reach b fun _ _ => True

/-- The actions, one after the other, and whether each was enabled. -/
def State.run (b : Build) (s : State) : List Act → State × Bool
  | [] => (s, true)
  | a :: rest =>
    let (s', ok) := (s.next b a).run b rest
    (s', s.enabled b a && ok)

theorem Reachable.run {b : Build} (as : List Act) : ∀ {s : State}, Reachable b s → (s.run b as).2 = true →
    Reachable b (s.run b as).1 := by
  induction as with
  | nil => exact fun h _ => h
  | cons a rest ih =>
    intro s h hr
    obtain ⟨ha, hrest⟩ := Bool.and_eq_true_iff.1 (show (s.enabled b a && ((s.next b a).run b rest).2) = true from hr)
    exact ih (Reach.step h a ha trivial) hrest

end Console
end KickOS
