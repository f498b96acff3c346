import KickOS.Console.Run

/-! Which threads there are: a thread that is gone, or that ends, is in no write and in no record. -/

namespace KickOS
namespace Console
open Function (update update_apply update_of_ne update_self)
namespace State

variable {b : Build} {s s' : State} {c : Ctx} {i : Nat}

theorem canRun_thread (h : s.canRun b (.thread i) = true) : i < b.threads ∧ s.live i = true ∧ s.slain i = false ∧
    s.exiting i = false ∧ s.parked i = false := by
  simpa [canRun, and_assoc] using h

structure Housed (b : Build) (s : State) : Prop where
  live : ∀ i, s.live i = true → i < b.threads
  gone : ∀ i, s.live i = false → s.place (.thread i) = .out ∧ s.inRecord i = false
  exiting : ∀ i, s.exiting i = true → s.place (.thread i) = .out ∧ s.inRecord i = false
  slain : ∀ i, s.slain i = true → s.live i = true ∧ s.exiting i = false

/-- Nothing about threads changes but the place of one context, and whether one thread is in a record. -/
structure Calm (c : Ctx) (s s' : State) : Prop where
  live : s'.live = s.live
  exiting : s'.exiting = s.exiting
  slain : s'.slain = s.slain
  inRecord : ∀ i, c ≠ .thread i → s'.inRecord i = s.inRecord i
  place : ∀ e, e ≠ c → s'.place e = s.place e

theorem Calm.setPlace (s : State) (c : Ctx) (p : Place) : Calm c s (s.setPlace c p) :=
  ⟨rfl, rfl, rfl, fun _ _ => rfl, fun _ he => update_of_ne he _ _⟩

theorem Housed.calm (h : Housed b s) (hc : s.canRun b c = true) (k : Calm c s s') : Housed b s' := by
  have hother : ∀ i, s.live i = false ∨ s.exiting i = true → c ≠ .thread i := by
    rintro i hi rfl
    obtain ⟨-, h1, -, h2, -⟩ := canRun_thread hc
    rcases hi with hi | hi
    · rw [h1] at hi
      cases hi
    · rw [h2] at hi
      cases hi
  refine ⟨?_, ?_, ?_, ?_⟩
  · rw [k.live]
    exact h.live
  · intro i hi
    rw [k.live] at hi
    rw [k.place _ (hother i (.inl hi)).symm, k.inRecord i (hother i (.inl hi))]
    exact h.gone i hi
  · intro i hi
    rw [k.exiting] at hi
    rw [k.place _ (hother i (.inr hi)).symm, k.inRecord i (hother i (.inr hi))]
    exact h.exiting i hi
  · rw [k.slain, k.live, k.exiting]
    exact h.slain

theorem Housed.still (h : Housed b s) (hl : s'.live = s.live) (he : s'.exiting = s.exiting) (hs : s'.slain = s.slain)
    (hr : s'.inRecord = s.inRecord) (hp : s'.place = s.place) : Housed b s' :=
  ⟨by rw [hl]; exact h.live, by rw [hl, hp, hr]; exact h.gone, by rw [he, hp, hr]; exact h.exiting,
    by rw [hs, hl, he]; exact h.slain⟩

theorem Calm.chipWriterEnter (s : State) (c : Ctx) (l : Line) (serves fits : Bool) (current room : Nat) :
    Calm c s (s.chipWriterEnter c l serves fits current room) := by
  unfold State.chipWriterEnter
  split_ifs
  · exact ⟨rfl, rfl, rfl, fun _ _ => rfl, fun _ _ => rfl⟩
  · exact ⟨rfl, rfl, rfl, fun _ _ => rfl, fun _ _ => rfl⟩
  · exact ⟨rfl, rfl, rfl, fun _ _ => rfl, fun _ _ => rfl⟩
  · exact ⟨rfl, rfl, rfl, fun _ _ => rfl, fun _ _ => rfl⟩
  · cases c <;> exact ⟨rfl, rfl, rfl, fun _ _ => rfl, fun _ he => update_of_ne he _ _⟩

theorem Calm.queueLine (s : State) (c : Ctx) (l : Line) (room : Bool) : Calm c s (s.queueLine c l room) := by
  unfold State.queueLine
  split_ifs
  · exact setPlace s c _
  · exact setPlace s c _
  · exact ⟨rfl, rfl, rfl, fun _ _ => rfl, fun _ he => update_of_ne he _ _⟩
  · exact setPlace s c _

theorem Calm.lineTake (b : Build) (s : State) (c : Ctx) (l : Line) (claimed claimLeft : Bool) :
    Calm c s (s.lineTake b c l claimed claimLeft) := by
  obtain ⟨o, w, p, -, heq | ⟨i, -, -, heq⟩ | ⟨-, u, heq⟩⟩ := lineTake_cases b s c l claimed claimLeft
  all_goals
    rw [heq]
    exact ⟨rfl, rfl, rfl, fun _ _ => rfl, fun _ he => update_of_ne he _ _⟩

theorem Calm.lineEnd (s : State) (c : Ctx) (l : Line) (t : Turn) (n : Nat) (stalled claimLeft : Bool) :
    Calm c s (s.lineEnd c l t n stalled claimLeft) := by
  rw [State.lineEnd]
  split_ifs
  · obtain ⟨x, w, p, heq, -⟩ := claimedEnd_eq s c t claimLeft
    rw [heq]
    exact ⟨rfl, rfl, rfl, fun _ _ => rfl, fun _ he => update_of_ne he _ _⟩
  · exact ⟨rfl, rfl, rfl, fun _ _ => rfl, fun _ he => update_of_ne he _ _⟩

theorem Calm.putByte (s : State) (c : Ctx) : Calm c s (s.putByte c) := by
  unfold State.putByte
  cases s.place c with
  | between l t n =>
    dsimp only
    split_ifs
    · exact ⟨rfl, rfl, rfl, fun _ _ => rfl, fun _ he => update_of_ne he _ _⟩
    · exact setPlace s c _
  | _ => exact ⟨rfl, rfl, rfl, fun _ _ => rfl, fun _ _ => rfl⟩

theorem Calm.storeByte (s : State) (c : Ctx) (stored : Bool) : Calm c s (s.storeByte c stored) := by
  unfold State.storeByte
  cases s.place c with
  | putting l t n =>
    dsimp only
    split_ifs <;> exact ⟨rfl, rfl, rfl, fun _ _ => rfl, fun _ he => update_of_ne he _ _⟩
  | _ => exact ⟨rfl, rfl, rfl, fun _ _ => rfl, fun _ _ => rfl⟩

theorem Calm.leaveOffer (s : State) (c : Ctx) : Calm c s (s.leaveOffer c) := by
  unfold State.leaveOffer
  cases s.place c with
  | closing l took sent stalled =>
    obtain ⟨p, heq⟩ := chipWriterLeave_eq s c
    dsimp only
    rw [heq]
    exact ⟨rfl, rfl, rfl, fun _ _ => rfl, fun _ he => update_of_ne he _ _⟩
  | _ => exact ⟨rfl, rfl, rfl, fun _ _ => rfl, fun _ _ => rfl⟩

theorem Calm.recordBegin (s : State) (i : Nat) : Calm (.thread i) s (s.recordBegin i) := by
  rw [State.recordBegin]
  split_ifs
  · exact ⟨rfl, rfl, rfl, fun _ _ => rfl, fun _ _ => rfl⟩
  · refine ⟨rfl, rfl, rfl, fun k hk => ?_, fun _ _ => rfl⟩
    exact update_of_ne (fun h => hk (by rw [h])) _ _

theorem Calm.krecordEnd (s : State) (i : Nat) (deliver : Bool) : Calm (.thread i) s (s.krecordEnd i deliver) := by
  obtain ⟨l, w, p, heq⟩ := krecordEnd_eq s i deliver
  rw [heq]
  refine ⟨rfl, rfl, rfl, fun k hk => ?_, fun _ _ => rfl⟩
  exact update_of_ne (fun h => hk (by rw [h])) _ _

theorem Calm.ownerSetUser (s : State) (i : Nat) (free : Bool) :
    Calm (.thread i) s ((s.setPlace (.thread i) .out).ownerSetUser free) := by
  obtain ⟨_, _, _, _, _, _, _, _, _, heq⟩ := ownerSetUser_eq (s.setPlace (.thread i) .out) free
  rw [heq]
  exact ⟨rfl, rfl, rfl, fun _ _ => rfl, fun _ he => update_of_ne he _ _⟩

theorem Calm.handoverBegin (s : State) (i : Nat) :
    Calm (.thread i) s ((s.handoverBegin i).setPlace (.thread i) (.handing false)) := by
  obtain ⟨w, n, heq⟩ := handoverBegin_eq s i
  rw [heq]
  exact ⟨rfl, rfl, rfl, fun _ _ => rfl, fun _ he => update_of_ne he _ _⟩

theorem slayExit_eq (b : Build) (s : State) (i : Nat) : ∃ w l p q o t, s.slayExit b i =
    { s.slainFields b i w l p with
      publisher := q
      owner := o
      wire := t
      place := update s.place (.thread i) .out
      slain := update s.slain i false
      exiting := update s.exiting i true } := by
  obtain ⟨w, l, p, heq⟩ := kconsoleSlain_eq b s i
  rw [slayExit, heq, slainHandover]
  split_ifs
  · obtain ⟨t, v, hf⟩ := heldFlush_eq { s.slainFields b i w l p with publisher := none, owner := .reclaimed } .reclaim
    refine ⟨w, v, fun _ => false, none, .reclaimed, t, ?_⟩
    rw [hf]
    rfl
  · exact ⟨w, l, p, s.publisher, s.owner, s.wire, rfl⟩

theorem Housed.slayExit (h : Housed b s) (i : Nat) : Housed b (s.slayExit b i) := by
  obtain ⟨w, l, p, q, o, t, heq⟩ := slayExit_eq b s i
  rw [heq]
  have hstay : ∀ k, s.place (.thread k) = .out ∧ s.inRecord k = false →
      update s.place (.thread i) .out (.thread k) = .out ∧ update s.inRecord i false k = false := by
    rintro k ⟨h1, h2⟩
    simp only [update_apply]
    split_ifs <;> exact ⟨by first | rfl | exact h1, by first | rfl | exact h2⟩
  refine ⟨h.live, fun k hk => hstay k (h.gone k hk), ?_, ?_⟩
  · intro k hk
    by_cases hki : k = i
    · subst hki
      exact ⟨update_self _ _ _, update_self _ _ _⟩
    · exact hstay k (h.exiting k ((update_of_ne hki _ _).symm.trans hk))
  · intro k hk
    have hk' : update s.slain i false k = true := hk
    rw [update_apply] at hk'
    split_ifs at hk' with hki
    exact ⟨(h.slain k hk').1, (update_of_ne hki _ _).trans (h.slain k hk').2⟩

theorem Housed.slay (h : Housed b s) (hl : s.live i = true) (he : s.exiting i = false) {p : Nat → Bool} :
    Housed b { s with slain := update s.slain i true, parked := p } := by
  refine ⟨h.live, h.gone, h.exiting, ?_⟩
  intro k hk
  have hk' : update s.slain i true k = true := hk
  rw [update_apply] at hk'
  split_ifs at hk' with hki
  · rw [hki]
    exact ⟨hl, he⟩
  · exact h.slain k hk'

theorem Housed.exit (h : Housed b s) (hs : s.slain i = false) (ho : s.place (.thread i) = .out ∧ s.inRecord i = false) :
    Housed b { s with live := update s.live i false, exiting := update s.exiting i false } := by
  refine ⟨?_, ?_, ?_, ?_⟩
  · intro k hk
    have hk' : update s.live i false k = true := hk
    rw [update_apply] at hk'
    split_ifs at hk'
    exact h.live k hk'
  · intro k hk
    by_cases hki : k = i
    · rw [hki]
      exact ho
    · exact h.gone k ((update_of_ne hki _ _).symm.trans hk)
  · intro k hk
    have hk' : update s.exiting i false k = true := hk
    rw [update_apply] at hk'
    split_ifs at hk'
    exact h.exiting k hk'
  · intro k hk
    have hki : k ≠ i := by
      rintro rfl
      rw [hs] at hk
      cases hk
    obtain ⟨h1, h2⟩ := h.slain k hk
    exact ⟨(update_of_ne hki _ _).trans h1, (update_of_ne hki _ _).trans h2⟩

theorem Housed.spawn (h : Housed b s) (hi : i < b.threads) : Housed b (s.spawn i) := by
  have hstay : ∀ k, s.place (.thread k) = .out ∧ s.inRecord k = false →
      (s.spawn i).place (.thread k) = .out ∧ (s.spawn i).inRecord k = false := by
    rintro k ⟨h1, h2⟩
    show update s.place (.thread i) .out (.thread k) = .out ∧ update s.inRecord i false k = false
    simp only [update_apply]
    split_ifs <;> exact ⟨by first | rfl | exact h1, by first | rfl | exact h2⟩
  refine ⟨?_, ?_, ?_, ?_⟩
  · intro k hk
    have hk' : update s.live i true k = true := hk
    rw [update_apply] at hk'
    split_ifs at hk' with hki
    · rw [hki]
      exact hi
    · exact h.live k hk'
  · intro k hk
    have hk' : update s.live i true k = false := hk
    rw [update_apply] at hk'
    split_ifs at hk'
    exact hstay k (h.gone k hk')
  · intro k hk
    have hk' : update s.exiting i false k = true := hk
    rw [update_apply] at hk'
    split_ifs at hk'
    exact hstay k (h.exiting k hk')
  · intro k hk
    have hk' : update s.slain i false k = true := hk
    rw [update_apply] at hk'
    split_ifs at hk' with hki
    obtain ⟨h1, h2⟩ := h.slain k hk'
    exact ⟨(update_of_ne hki _ _).trans h1, (update_of_ne hki _ _).trans h2⟩

theorem Housed.exit_out (h : Housed b s) (he : s.enabled b (.exit i) = true) :
    s.slain i = false ∧ s.place (.thread i) = .out ∧ s.inRecord i = false := by
  simp only [enabled, Bool.and_eq_true, Bool.or_eq_true, beq_iff_eq, Bool.not_eq_true'] at he
  rcases he.2 with hx | ⟨⟨hr, ho⟩, hn⟩
  · refine ⟨?_, h.exiting i hx⟩
    cases hs : s.slain i with
    | false => rfl
    | true =>
      rw [(h.slain i hs).2] at hx
      cases hx
  · exact ⟨(canRun_thread hr).2.2.1, ho, hn⟩

theorem Housed.next (h : Housed b s) {a : Act} (ha : s.enabled b a = true) : Housed b (s.next b a) := by
  cases a with
  | enter c l serves fits current room =>
    simp only [enabled, Bool.and_eq_true] at ha
    exact h.calm ha.1 (Calm.chipWriterEnter s c l serves fits current room)
  | queue c room =>
    obtain ⟨hr, l, r, -, heq⟩ := queue_cases ha
    rw [heq]
    exact h.calm hr (Calm.queueLine s c l room)
  | take c claimLeft =>
    obtain ⟨hr, l, claimed, -, heq⟩ := take_cases ha
    rw [heq]
    exact h.calm hr (Calm.lineTake b s c l claimed claimLeft)
  | opened c =>
    obtain ⟨hr, -, l, t, -, heq⟩ := opened_cases ha
    rw [heq]
    exact h.calm hr (Calm.setPlace s c _)
  | put c => exact h.calm (put_cases ha).1 (Calm.putByte s c)
  | stored c stored => exact h.calm (stored_cases ha).1 (Calm.storeByte s c stored)
  | finish c claimLeft =>
    obtain ⟨hr, l, t, n, stalled, -, heq⟩ := finish_cases ha
    rw [heq]
    exact h.calm hr (Calm.lineEnd s c l t n stalled claimLeft)
  | drain c => exact h.still rfl rfl rfl rfl rfl
  | drained c =>
    obtain ⟨hr, l, -, heq⟩ := drained_cases ha
    rw [heq]
    exact h.calm hr (Calm.setPlace s c _)
  | leave c => exact h.calm (leave_cases ha).1 (Calm.leaveOffer s c)
  | txIsr => exact h.still rfl rfl rfl rfl rfl
  | recordBegin i =>
    simp only [enabled, Bool.and_eq_true] at ha
    exact h.calm ha.1 (Calm.recordBegin s i)
  | recordEnd i deliver =>
    simp only [enabled, Bool.and_eq_true] at ha
    exact h.calm ha.1 (Calm.krecordEnd s i deliver)
  | ask i claimLeft =>
    obtain ⟨o, w, p, heq, -⟩ := lineTaken_eq b s (.thread i) claimLeft
    rw [State.next, heq]
    exact h.still rfl rfl rfl rfl rfl
  | parkLine i claimLeft =>
    obtain ⟨o, w, p, heq, -⟩ := lineTaken_eq b s (.thread i) claimLeft
    rw [State.next, heq]
    exact h.still rfl rfl rfl rfl rfl
  | park i => exact h.still rfl rfl rfl rfl rfl
  | wake i => exact h.still rfl rfl rfl rfl rfl
  | publish p =>
    simp only [enabled, Bool.and_eq_true] at ha
    exact h.calm ha.1.1.1 (Calm.handoverBegin s p)
  | looked p =>
    simp only [enabled, Bool.and_eq_true] at ha
    exact h.calm ha.1.1 (Calm.setPlace s _ _)
  | setUser p free =>
    simp only [enabled, Bool.and_eq_true] at ha
    exact h.calm ha.1 (Calm.ownerSetUser s p free)
  | driverEnded free =>
    obtain ⟨d, o, w, l, p, heq⟩ := onDriverDeath_eq { s with driverDied := true } free
    rw [State.next, heq]
    exact h.still rfl rfl rfl rfl rfl
  | retry free =>
    obtain ⟨d, o, w, l, p, heq⟩ := onDriverDeath_eq s free
    rw [State.next, heq]
    exact h.still rfl rfl rfl rfl rfl
  | panic =>
    obtain ⟨c, a, o, w, l, n, heq⟩ := kpanicEnter_eq s
    rw [State.next, heq]
    exact h.still rfl rfl rfl rfl rfl
  | panicUnlocked =>
    obtain ⟨w, heq⟩ := kpanicEnterUnlocked_eq s
    rw [State.next, heq]
    exact h.still rfl rfl rfl rfl rfl
  | panicWrite => exact h.still rfl rfl rfl rfl rfl
  | slay i =>
    simp only [enabled, Bool.and_eq_true, Bool.not_eq_true'] at ha
    exact h.slay ha.1.1.1.2 ha.1.2
  | slayExit i => exact h.slayExit i
  | exit i =>
    obtain ⟨h1, h2⟩ := h.exit_out ha
    exact h.exit h1 h2
  | spawn i =>
    simp only [enabled, Bool.and_eq_true, decide_eq_true_eq] at ha
    exact h.spawn ha.1

end State

theorem Reach.housed {b : Build} {ok : State → Act → Prop} {s : State} (h : Reach b ok s) : s.Housed b := by
  induction h with
  | boot armed => exact ⟨(fun _ hi => by cases hi), fun _ _ => ⟨rfl, rfl⟩, (fun _ hi => by cases hi), fun _ hi => by cases hi⟩
  | step _ a ha _ ih => exact ih.next ha

end Console
end KickOS
