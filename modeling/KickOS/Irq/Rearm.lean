import KickOS.Irq.Served

/-! No line stays masked unserved, over every order of claims, interrupts, waits and closes. -/

namespace KickOS
namespace Irq
open Function (update update_apply update_eq_self update_of_ne update_self)

structure Build where
  lines : Nat
  /-- `irq_line_kernel_owned`. -/
  kernelOwned : Nat → Bool

inductive Act where
  | claim (i line : Nat) (level : Bool)
  | bindNotify (i n : Nat) (badge : Fin 32) (fits : Bool)
  /-- The device raises, or `irq_raise` does. -/
  | raise (line : Nat)
  | deliver (line : Nat)
  | wait (c n : Nat) (mask : BitVec 32) (cancelled : Bool)
  | resume (c : Nat)
  | fused (c : Nat) (opens : BitVec 32) (parks : Bool)
  | fusedResume (c : Nat)
  | waitEnd (c : Nat)
  /-- `notify_signal`, of a capability with this badge. -/
  | signal (n : Nat) (badge : Fin 32)
  | ack (i : Nat)
  | discard (i : Nat)
  | bind (c n : Nat)
  | unbind (c : Nat)
  | irqCopy (i : Nat)
  | irqClose (i : Nat)
  | create (n : Nat)
  | notifyCopy (n : Nat)
  | notifyClose (n : Nat)
  | exit (c : Nat)
  /-- `irq_attach`, of a line the kernel serves itself, which it opens and detaches. -/
  | attach (line : Nat)
  | unmaskOwn (line : Nat)
  | detach (line : Nat)
  deriving DecidableEq

namespace State

def enabled (d : Build) (s : State) : Act → Bool
  | .claim _ line _ => decide (line < d.lines) && !d.kernelOwned line
  | .deliver line => s.latched line && !s.masked line
  | .wait c _ _ _ => s.wait c == .idle
  | .fused c _ _ => s.wait c == .idle
  | .bind c _ => s.wait c == .idle
  | .unbind c => s.wait c == .idle
  | .notifyCopy n => decide (0 < s.caps n)
  | .notifyClose n => decide (0 < s.caps n)
  | .attach line => decide (line < d.lines) && !d.kernelOwned line && s.table line == .default
  | .unmaskOwn line => s.table line == .kernel
  | .detach line => s.table line == .kernel
  | _ => true

def next (s : State) : Act → State
  | .claim i line level => s.irqClaim i line level
  | .bindNotify i n badge fits => s.irqBindNotify i n badge fits
  | .raise line => { s with latched := update s.latched line true }
  | .deliver line => (s.clear line).isrIrq line
  | .wait c n mask cancelled => (s.notifyWait c n mask cancelled).1
  | .resume c => s.notifyResume c
  | .fused c opens parks => (s.fusedWait c opens parks).1
  | .fusedResume c => s.fusedResume c
  | .waitEnd c => s.waitEnd c
  | .signal n badge => s.notifyRaise n (bit badge)
  | .ack i => s.irqAck i
  | .discard i => s.irqDiscard i
  | .bind c n => s.notifyBind c n
  | .unbind c => s.notifyUnbind c
  | .irqCopy i => s.irqCopy i
  | .irqClose i => s.irqRefDrop i
  | .create n => s.notifyCreate n
  | .notifyCopy n => s.notifyCopy n
  | .notifyClose n => s.notifyClose n
  | .exit c => s.threadExit c
  | .attach line => { s with table := update s.table line .kernel }
  | .unmaskOwn line => (s.clear line).unmask line
  | .detach line => s.irqDetach line

end State

inductive Reachable (d : Build) : State → Prop where
  | boot : Reachable d {}
  | step {s : State} (hs : Reachable d s) (a : Act) (ha : s.enabled d a = true) : Reachable d (s.next a)

namespace State

variable {s : State} {i n c : Nat}

theorem Served.notifyWait (h : Served none s) (c n : Nat) (mask : BitVec 32) (cancelled : Bool) :
    Served none (s.notifyWait c n mask cancelled).1 := by
  unfold State.notifyWait
  split_ifs
  · exact h
  · cases hx : s.notifies n with
    | none => exact h
    | some x =>
      have hrearm := h.signallersRearm mask x.signallers
      have hx' : (s.signallersRearm mask x.signallers).notifies n = some x :=
        (congrFun (signallersRearm_rearmed mask x.signallers s).notifies n).trans hx
      dsimp only
      split_ifs
      · exact h
      · exact hrearm.takePending n mask
      · exact hrearm.renote hx' rfl rfl rfl rfl rfl rfl rfl rfl rfl fun i b hb hn hm => hrearm.owed i b n x hb hn hx' hm

theorem Served.accept (h : Served none s) {x : Notification} (hx : s.notifies n = some x) (mask : BitVec 32) :
    Served none (s.setNote n { x with accept := mask }) :=
  h.renote hx rfl rfl rfl rfl rfl rfl rfl rfl rfl fun i b hb hn hm => h.owed i b n x hb hn hx hm

theorem Served.notifyResume (h : Served none s) (c : Nat) : Served none (s.notifyResume c) := by
  unfold State.notifyResume
  cases s.wait c with
  | woken n mask failed =>
    have hidle : Served none { s with wait := update s.wait c .idle } := h.same rfl rfl rfl rfl rfl rfl
    dsimp only
    cases hx : s.notifies n with
    | none => exact hidle
    | some x =>
      have hshut := hidle.accept hx 0
      dsimp only
      split_ifs
      · exact hshut
      · exact hshut.takePending n mask
  | _ => exact h

theorem Served.notifyWaitLeave (h : Served none s) (c : Nat) (opened : BitVec 32) :
    Served none (s.notifyWaitLeave c opened).1 := by
  unfold State.notifyWaitLeave
  cases s.notifyBound c with
  | none => exact h
  | some n =>
    dsimp only
    cases hx : s.notifies n with
    | none => exact h
    | some x => exact (h.accept hx 0).takePending n opened

theorem Served.notifyWaitEnter (h : Served none s) (c : Nat) (mask : BitVec 32) : Served none (s.notifyWaitEnter c mask).1 := by
  unfold State.notifyWaitEnter
  cases s.notifyBound c with
  | none => exact h
  | some n =>
    dsimp only
    cases hx : s.notifies n with
    | none => exact h
    | some x =>
      dsimp only
      split_ifs
      · exact h
      · have hx' : (s.signallersRearm mask x.signallers).notifies n = some x :=
          (congrFun (signallersRearm_rearmed mask x.signallers s).notifies n).trans hx
        exact (h.signallersRearm mask x.signallers).accept hx' mask

theorem Served.fusedWait (h : Served none s) (c : Nat) (opens : BitVec 32) (parks : Bool) :
    Served none (s.fusedWait c opens parks).1 := by
  have hopen := h.notifyWaitEnter c opens
  unfold State.fusedWait
  dsimp only
  split_ifs
  · exact hopen.notifyWaitLeave c _
  · exact hopen.same rfl rfl rfl rfl rfl rfl

theorem Served.fusedResume (h : Served none s) (c : Nat) : Served none (s.fusedResume c) := by
  unfold State.fusedResume
  cases s.wait c with
  | fusedWoken opened =>
    have hidle : Served none { s with wait := update s.wait c .idle } := h.same rfl rfl rfl rfl rfl rfl
    exact hidle.notifyWaitLeave c opened
  | _ => exact h

theorem Served.waitEnd (h : Served none s) (c : Nat) : Served none (s.waitEnd c) := by
  unfold State.waitEnd
  cases s.wait c with
  | parked n mask => exact h.same rfl rfl rfl rfl rfl rfl
  | fused opened => exact h.same rfl rfl rfl rfl rfl rfl
  | _ => exact h

theorem Served.irqDiscard (h : Served none s) (i : Nat) : Served none (s.irqDiscard i) := by
  unfold State.irqDiscard
  cases s.bindings i with
  | none => exact h
  | some b => exact h.same rfl rfl rfl rfl rfl rfl

theorem Served.irqCopy (h : Served none s) (i : Nat) : Served none (s.irqCopy i) := by
  unfold State.irqCopy
  cases hb : s.bindings i with
  | none => exact h
  | some b =>
    dsimp only
    split_ifs
    · exact h
    · exact h.rebind hb rfl rfl rfl rfl (fun _ _ => rfl) rfl rfl rfl rfl (fun hn => h.bare i b hb hn)
        fun n x hn hx hm => h.owed i b n x hb hn hx hm

theorem Served.ownLine (h : Served none s) (line : Nat) (t : Handler) (m : Bool) (l : Nat → Bool)
    (ht : ∀ i, s.table line ≠ .event i) (hnew : ∀ i, t ≠ .event i) (hm : t = .default → m = true) :
    Served none { s with
      latched := l, table := update s.table line t, masked := update s.masked line m } := by
  have hother : ∀ i b, s.bindings i = some b → b.line ≠ line := by
    rintro i b hb rfl
    exact ht i (h.seated i b hb)
  refine ⟨h.chain, h.noted, ?_, ?_, ?_, ?_, ?_, h.refs, h.bound⟩
  · intro i b hb
    exact (update_of_ne (hother i b hb) _ _).trans (h.seated i b hb)
  · intro k i hk
    have hk' : update s.table line t k = .event i := hk
    rw [update_apply] at hk'
    split_ifs at hk'
    · exact absurd hk' (hnew i)
    · exact h.owner k i hk'
  · intro i b hb hn
    obtain ⟨k1, k2, k3⟩ := h.bare i b hb hn
    exact ⟨(update_of_ne (hother i b hb) _ _).trans k1, k2, k3⟩
  · intro i b n x hb hn hx hmask
    exact h.owed i b n x hb hn hx ((update_of_ne (hother i b hb) _ _).symm.trans hmask)
  · intro k hk
    have hk' : update s.table line t k = .default := hk
    show update s.masked line m k = true
    rw [update_apply] at hk' ⊢
    split_ifs at hk' ⊢
    · exact hm hk'
    · exact h.default k hk'

theorem Served.next (h : Served none s) {d : Build} {a : Act} (ha : s.enabled d a = true) : Served none (s.next a) := by
  cases a with
  | claim i line level => exact h.irqClaim i line level
  | bindNotify i n badge fits => exact h.irqBindNotify i n badge fits
  | raise line => exact h.same rfl rfl rfl rfl rfl rfl
  | deliver line =>
    have hclear : Served none (s.clear line) := h.same rfl rfl rfl rfl rfl rfl
    exact hclear.isrIrq line
  | wait c n mask cancelled => exact h.notifyWait c n mask cancelled
  | resume c => exact h.notifyResume c
  | fused c opens parks => exact h.fusedWait c opens parks
  | fusedResume c => exact h.fusedResume c
  | waitEnd c => exact h.waitEnd c
  | signal n badge => exact h.notifyRaise n _
  | ack i => exact h.rearmLocked i
  | discard i => exact h.irqDiscard i
  | bind c n => exact h.notifyBind c n
  | unbind c => exact h.notifyUnbind c
  | irqCopy i => exact h.irqCopy i
  | irqClose i => exact h.irqRefDrop i
  | create n => exact h.notifyCreate n
  | notifyCopy n => exact h.notifyCopy n
  | notifyClose n => exact h.notifyClose (of_decide_eq_true ha)
  | exit c =>
    have hidle : Served none { s with wait := update s.wait c .idle } := h.same rfl rfl rfl rfl rfl rfl
    exact hidle.notifyUnbind c
  | attach line =>
    simp only [enabled, Bool.and_eq_true, beq_iff_eq] at ha
    have hown := h.ownLine line .kernel (s.masked line) s.latched
      (fun i hk => by rw [ha.2] at hk; cases hk) (fun i hk => by cases hk) fun hk => by cases hk
    rw [update_eq_self] at hown
    exact hown
  | unmaskOwn line =>
    simp only [enabled, beq_iff_eq] at ha
    have hown := h.ownLine line .kernel false (update s.latched line false)
      (fun i hk => by rw [ha] at hk; cases hk) (fun i hk => by cases hk) fun hk => by cases hk
    rw [← ha, update_eq_self] at hown
    exact hown
  | detach line =>
    simp only [enabled, beq_iff_eq] at ha
    exact h.ownLine line .default true s.latched (fun i hk => by rw [ha] at hk; cases hk) (fun i hk => by cases hk) fun _ => rfl

end State

theorem Reachable.served {d : Build} {s : State} (h : Reachable d s) : s.Served none := by
  induction h with
  | boot =>
    refine ⟨(fun n x hk => by cases hk), (fun i b n hk => by cases hk), (fun i b hk => by cases hk),
      (fun line i hk => by cases hk), (fun i b hk => by cases hk), (fun i b n x hk => by cases hk), fun line _ => rfl,
      (fun n x hk => by cases hk), fun c n => ⟨(fun hk => by cases hk), ?_⟩⟩
    rintro ⟨x, hx, -⟩
    cases hx
  | step _ a ha ih => exact ih.next ha

namespace State

theorem takePending_eq {s : State} {n : Nat} {x : Notification} (hx : s.notifies n = some x) (mask : BitVec 32) :
    (s.takePending n mask).1.masked = s.masked ∧ (s.takePending n mask).2 = x.pending &&& mask := by
  unfold takePending
  rw [hx]
  obtain ⟨f, heq, -⟩ := signallersOweRearm_eq (x.pending &&& mask) x.signallers
    (s.setNote n { x with pending := x.pending &&& ~~~(x.pending &&& mask) })
  dsimp only
  rw [heq]
  exact ⟨rfl, rfl⟩

theorem and_ne_zero_of_bit {x mask : BitVec 32} {k : Nat} (hx : x.getLsbD k = true) (hm : mask.getLsbD k = true) :
    x &&& mask ≠ 0 := by
  intro h
  have hk : (x &&& mask).getLsbD k = (0 : BitVec 32).getLsbD k := by rw [h]
  rw [BitVec.getLsbD_and, hx, hm] at hk
  simp at hk

variable {s : State} {i n c : Nat} {b : Binding} {x : Notification} {mask : BitVec 32}

theorem Served.rearm_opens (h : Served none s) (hb : s.bindings i = some b) (hn : b.notify = some n)
    (hx : s.notifies n = some x) (hr : b.needsRearm = true) (hk : mask.getLsbD b.badge = true) :
    (s.signallersRearm mask x.signallers).masked b.line = false :=
  signallersRearm_opens x.signallers (((h.chain n x hx).2 i).2 ⟨b, hb, hn⟩) hb (by rw [hn]; exact fun hk => by cases hk) hr
    ((hits_iff mask b.badge).2 hk)

theorem Served.notifyWait_serves (h : Served none s) (hb : s.bindings i = some b) (hn : b.notify = some n)
    (hx : s.notifies n = some x) (hm : s.masked b.line = true) (hc : x.bound = some c) (hk : mask.getLsbD b.badge = true) :
    (∃ bits, (s.notifyWait c n mask false).2 = .took bits ∧ bits.getLsbD b.badge = true) ∨
      (s.notifyWait c n mask false).1.masked b.line = false := by
  have hne : mask ≠ 0 := by
    rintro rfl
    simp at hk
  have hx' : (s.signallersRearm mask x.signallers).notifies n = some x :=
    (congrFun (signallersRearm_rearmed mask x.signallers s).notifies n).trans hx
  obtain ⟨hmask, hbits⟩ := takePending_eq hx' mask
  unfold State.notifyWait
  rw [if_neg hne, hx]
  dsimp only
  rw [if_neg (by rw [hc]; simp)]
  rcases h.owed i b n x hb hn hx hm with hr | hp
  · right
    have hopen := h.rearm_opens hb hn hx hr hk
    split_ifs
    · rw [hmask]
      exact hopen
    · exact hopen
  · left
    rw [if_pos (and_ne_zero_of_bit hp hk)]
    refine ⟨_, rfl, ?_⟩
    rw [hbits, BitVec.getLsbD_and, hp, hk]
    rfl

theorem Served.fusedWait_serves (h : Served none s) (hb : s.bindings i = some b) (hn : b.notify = some n)
    (hx : s.notifies n = some x) (hm : s.masked b.line = true) (hc : x.bound = some c) (hk : mask.getLsbD b.badge = true)
    (parks : Bool) : (∃ bits, (s.fusedWait c mask parks).2 = .took bits ∧ bits.getLsbD b.badge = true) ∨
      (s.fusedWait c mask parks).1.masked b.line = false := by
  have hne : mask ≠ 0 := by
    rintro rfl
    simp at hk
  have hbound : s.notifyBound c = some n := (h.bound c n).2 ⟨x, hx, hc⟩
  have hrearmed := signallersRearm_rearmed mask x.signallers s
  have henter : s.notifyWaitEnter c mask =
      ((s.signallersRearm mask x.signallers).setNote n { x with accept := mask }, mask) := by
    unfold State.notifyWaitEnter
    rw [hbound]
    dsimp only
    rw [hx]
    dsimp only
    rw [if_neg hne]
  -- the object and the bound thread behind the enter
  generalize hs' : (s.signallersRearm mask x.signallers).setNote n { x with accept := mask } = s' at henter
  have hx' : s'.notifies n = some { x with accept := mask } := by
    rw [← hs']
    exact update_self _ _ _
  have hbound' : s'.notifyBound c = some n := by
    rw [← hs']
    exact (congrFun hrearmed.notifyBound c).trans hbound
  have hpending : s'.notifyPendingOf c = x.pending := by
    rw [notifyPendingOf, hbound', Option.bind_some, hx']
  have hleave : s'.notifyWaitLeave c mask = (s'.setNote n { x with accept := 0 }).takePending n mask := by
    unfold State.notifyWaitLeave
    rw [hbound']
    dsimp only
    rw [hx']
  have hset : (s'.setNote n { x with accept := 0 }).notifies n = some { x with accept := 0 } := update_self _ _ _
  obtain ⟨hmask, hbits⟩ := takePending_eq hset mask
  unfold State.fusedWait
  rw [henter]
  dsimp only
  rw [hpending, hleave]
  rcases h.owed i b n x hb hn hx hm with hr | hp
  · right
    have hopen : s'.masked b.line = false := by
      rw [← hs']
      exact h.rearm_opens hb hn hx hr hk
    split_ifs
    · rw [hmask]
      exact hopen
    · exact hopen
  · left
    rw [if_pos (.inl (and_ne_zero_of_bit hp hk))]
    refine ⟨_, rfl, ?_⟩
    rw [hbits, BitVec.getLsbD_and, hp, hk]
    rfl

end State

/-- In every state reached: a masked line that a notification serves and that was armed once is owed a rearm or its bit is
pending; the next wait of the bound thread over that bit, alone or fused with a receive, returns it at once or opens the
line; and a line whose binding has no notification is masked. -/
theorem no_line_unserved {d : Build} {s : State} (h : Reachable d s) :
    (∀ i b n x, s.bindings i = some b → b.notify = some n → s.notifies n = some x → b.armedOnce = true →
        s.masked b.line = true →
        (b.needsRearm = true ∨ x.pending.getLsbD b.badge = true) ∧
          ∀ c mask, x.bound = some c → mask.getLsbD b.badge = true →
            ((∃ bits, (s.notifyWait c n mask false).2 = .took bits ∧ bits.getLsbD b.badge = true) ∨
                (s.notifyWait c n mask false).1.masked b.line = false) ∧
              ∀ parks, (∃ bits, (s.fusedWait c mask parks).2 = .took bits ∧ bits.getLsbD b.badge = true) ∨
                (s.fusedWait c mask parks).1.masked b.line = false) ∧
      ∀ i b, s.bindings i = some b → b.notify = none → s.masked b.line = true := by
  have hs := h.served
  refine ⟨fun i b n x hb hn hx _ hm => ⟨hs.owed i b n x hb hn hx hm, fun c mask hc hk => ⟨?_, ?_⟩⟩, fun i b hb hn => ?_⟩
  · exact hs.notifyWait_serves hb hn hx hm hc hk
  · exact hs.fusedWait_serves hb hn hx hm hc hk
  · exact (hs.bare i b hb hn).1

def fewLines : Build := ⟨8, fun _ => false⟩

/-- Line 5 fires while its driver waits on it. -/
def firedLine : State :=
  (((((({} : State).next (.claim 0 5 false)).next (.create 0)).next (.bindNotify 0 0 ⟨3, by decide⟩ true)).next (.bind 1 0)).next
    (.wait 1 0 8 false)).next (.raise 5) |>.next (.deliver 5)

theorem firedLine_reachable : Reachable fewLines firedLine :=
  ((((((Reachable.boot.step (.claim 0 5 false) (by decide)).step (.create 0) (by decide)).step
    (.bindNotify 0 0 ⟨3, by decide⟩ true) (by decide)).step (.bind 1 0) (by decide)).step (.wait 1 0 8 false) (by decide)).step
    (.raise 5) (by decide)).step (.deliver 5) (by decide)

theorem no_line_unserved_firedLine : ∃ b x, firedLine.bindings 0 = some b ∧ b.notify = some 0 ∧ firedLine.notifies 0 = some x ∧
    firedLine.masked b.line = true ∧ (b.needsRearm = true ∨ x.pending.getLsbD b.badge = true) :=
  ⟨⟨5, some 0, ⟨3, by decide⟩, false, true, false, 1⟩, ⟨8, 8, some 1, [0], 3⟩, by decide, rfl, by decide, by decide,
    ((no_line_unserved firedLine_reachable).1 0 _ 0 _ (by decide) rfl (by decide) rfl (by decide)).1⟩

end Irq
end KickOS
