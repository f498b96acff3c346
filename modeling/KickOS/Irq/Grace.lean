import KickOS.Irq.Reclaim

/-! A record is reclaimed only behind every entry that could hold it, in every order of the cores' accesses. -/

namespace KickOS
namespace Publish
open Function (update update_apply update_of_ne update_self)
namespace State

variable {d : Build} {s : State} {k r i line : Nat}

theorem Sound.start (h : Sound d s) (hk : s.kop = .idle) (t : Then) : Sound d { s with kop := .pass 0 t } := by
  have hph := h.guarded.phase
  rw [State.phase, hk] at hph
  refine ⟨h.chained.same rfl rfl rfl rfl rfl rfl rfl (by rw [hk]; rfl) rfl, ?_⟩
  refine h.guarded.moveOn (fun j f q _ _ _ => ⟨fun hs => ?_, rfl⟩) hph
  rw [sampled, hk]
  exact hs

theorem Guarded.retire (h : Guarded d s) (hk : s.kop = .idle) {w : Nat → Word} {p : Nat → Option Nat}
    {f : Nat → Option Binding} {l : List Nat} : Guarded d { s with
      pubBinding := p, pubState := update s.pubState r .pending, pending := l, word := w, kop := .pass 0 .done
      bindings := f } := by
  have hph := h.phase
  rw [State.phase, hk] at hph
  refine h.locked rfl rfl rfl ?_ (fun _ _ _ _ _ => rfl) ?_ hph
  · intro k g q hg hq
    show update s.pubState r .pending q ≠ .free
    rw [update_apply]
    split_ifs
    · decide
    · exact h.held k g q hg hq
  · intro k g q hg hq hs
    refine ⟨fun hsam => ?_, rfl⟩
    have hs' : update s.pubState r .pending q = .draining := hs
    rw [update_apply] at hs'
    split_ifs at hs'
    refine ⟨hs', ?_⟩
    rw [sampled, hk]
    exact hsam

theorem Sound.detach (h : Sound d s) (hk : s.kop = .idle) (ho : s.ownLine line = true) : Sound d (s.lineRelease line none) := by
  unfold lineRelease
  cases hw : s.word line with
  | none => exact h.start hk .done
  | retiring q => exact h.start hk .done
  | live q =>
    rw [ownLine, hw] at ho
    have hpub : s.pub q = .kernel := beq_iff_eq.1 ho
    obtain ⟨hlive, -⟩ := h.chained.live hw
    refine ⟨?_, h.guarded.retire hk⟩
    refine h.chained.retire hw (by rw [hk]; rfl) rfl rfl rfl rfl rfl rfl rfl (fun _ _ => rfl) ?_ ?_ ?_
    · intro j
      constructor
      · intro hj
        exact h.chained.owes q j (by rw [hlive]; decide) hj
      · intro hj
        rw [hpub] at hj
        cases hj
    · intro j e he
      refine ⟨e, he, rfl, fun hpos => ⟨hpos, fun hj => ?_⟩⟩
      rw [hpub] at hj
      cases hj
    · exact fun j b hb => ⟨b, hb, rfl, fun _ => rfl⟩

theorem Sound.irqRefDrop (h : Sound d s) (hk : s.kop = .idle) {b : Binding} (hb : s.bindings i = some b) (hpos : 0 < b.refs) :
    Sound d (s.irqRefDrop i) := by
  unfold State.irqRefDrop
  rw [hb]
  dsimp only
  split_ifs with hlast
  · obtain ⟨q, q1, q2, q3, q4⟩ := h.chained.bound i b hb
    have hlive := q4 hpos
    have hw : s.word b.line = .live q := by
      rw [h.chained.word_state q1 q3, hlive]
      rfl
    unfold lineRelease
    dsimp only
    rw [hw]
    dsimp only
    rw [if_neg (by simp)]
    refine ⟨?_, h.guarded.retire hk⟩
    refine h.chained.retire hw (by rw [hk]; rfl) rfl rfl rfl rfl rfl rfl rfl
      (fun j hj => update_of_ne hj _ _) ?_ ?_ ?_
    · intro j
      show update s.pubBinding q (some i) q = some j ↔ s.pub q = .event j
      rw [update_self, q2]
      simp
    · intro j e he
      have he' : update s.bindings i (some { b with refs := b.refs - 1 }) j = some e := he
      rw [update_apply] at he'
      split_ifs at he' with hji
      · cases he'
        rw [hji]
        refine ⟨b, hb, rfl, fun hp => ?_⟩
        have hp' : 0 < b.refs - 1 := hp
        omega
      · refine ⟨e, he', rfl, fun hp => ⟨hp, fun hj => hji ?_⟩⟩
        rw [q2] at hj
        exact (Dispatch.event.inj hj).symm
    · intro j e he
      by_cases hji : j = i
      · subst hji
        rw [hb] at he
        cases he
        exact ⟨_, update_self _ _ _, rfl, fun hj => absurd q2 hj⟩
      · exact ⟨e, (update_of_ne hji _ _).trans he, rfl, fun _ => rfl⟩
  · refine ⟨h.chained.rebind hb rfl hpos ?_, ?_⟩
    · show 0 < b.refs - 1
      omega
    · exact h.guarded.locked rfl rfl rfl (fun k f q hf hq => h.guarded.held k f q hf hq) (fun _ _ _ _ _ => rfl)
        (fun k f q hf hq hs => ⟨fun hsam => ⟨hs, hsam⟩, h.guarded.clear k f q hf hq hs⟩) h.guarded.phase

theorem Sound.rebind (h : Sound d s) {b e : Binding} (hb : s.bindings i = some b) (hl : e.line = b.line) (hr : 0 < b.refs)
    (hr' : 0 < e.refs) : Sound d { s with bindings := update s.bindings i (some e) } :=
  ⟨h.chained.rebind hb hl hr hr', h.guarded.locked rfl rfl rfl (fun k f q hf hq => h.guarded.held k f q hf hq)
    (fun _ _ _ _ _ => rfl) (fun k f q hf hq hs => ⟨fun hsam => ⟨hs, hsam⟩, h.guarded.clear k f q hf hq hs⟩) h.guarded.phase⟩

theorem Sound.entered (h : Sound d s) {e : Nat → Nat} {g : Nat → List Frame}
    (hg : Guarded d { s with epoch := e, frames := g }) : Sound d { s with epoch := e, frames := g } :=
  ⟨h.chained.same rfl rfl rfl rfl rfl rfl rfl rfl rfl, hg⟩

theorem load_eq (d : Build) (s : State) (k : Nat) : ∃ g, s.load d k = { s with frames := g } := by
  unfold load
  split
  · exact ⟨_, rfl⟩
  · exact ⟨s.frames, rfl⟩

theorem read_eq (s : State) (k : Nat) : ∃ g, s.read k = { s with frames := g } := by
  unfold read
  split
  · exact ⟨_, rfl⟩
  · exact ⟨_, rfl⟩
  · exact ⟨s.frames, rfl⟩

theorem leave_eq (s : State) (k : Nat) : ∃ e g, s.leave k = { s with epoch := e, frames := g } := by
  unfold leave
  split
  · exact ⟨_, _, rfl⟩
  · exact ⟨s.epoch, s.frames, rfl⟩

theorem Sound.next (h : Sound d s) {a : Act} (ha : s.enabled d a = true) : Sound d (s.next d a) := by
  cases a with
  | enter k line => exact h.entered (h.guarded.enter (of_decide_eq_true ha) line)
  | load k =>
    have hg := h.guarded.load h.chained k
    obtain ⟨g, heq⟩ := load_eq d s k
    rw [heq] at hg
    rw [State.next, heq]
    exact h.entered hg
  | read k =>
    have hg := h.guarded.readRecord k
    obtain ⟨g, heq⟩ := read_eq s k
    rw [heq] at hg
    rw [State.next, heq]
    exact h.entered hg
  | leave k =>
    have hg := h.guarded.leave k
    obtain ⟨e, g, heq⟩ := leave_eq s k
    rw [heq] at hg
    rw [State.next, heq]
    exact h.entered hg
  | attach line => exact h.start (beq_iff_eq.1 ha) _
  | detach line =>
    simp only [enabled, Bool.and_eq_true, beq_iff_eq] at ha
    exact h.detach ha.1 ha.2
  | claim line i => exact h.start (beq_iff_eq.1 ha) _
  | bindNotify i n =>
    simp only [enabled, Bool.and_eq_true, beq_iff_eq] at ha
    obtain ⟨b, hb, hpos⟩ := (Option.any_eq_true _ _).1 ha.2
    rw [decide_eq_true_eq] at hpos
    unfold State.next
    dsimp only
    rw [hb]
    dsimp only
    split_ifs
    · exact h.rebind hb rfl hpos hpos
    · exact h
  | copy i =>
    simp only [enabled, Bool.and_eq_true, beq_iff_eq] at ha
    obtain ⟨b, hb, hpos⟩ := (Option.any_eq_true _ _).1 ha.2
    rw [decide_eq_true_eq] at hpos
    unfold State.next
    dsimp only
    rw [hb]
    exact h.rebind hb rfl hpos (Nat.succ_pos _)
  | refDrop i =>
    simp only [enabled, Bool.and_eq_true, beq_iff_eq] at ha
    obtain ⟨b, hb, hpos⟩ := (Option.any_eq_true _ _).1 ha.2
    rw [decide_eq_true_eq] at hpos
    exact h.irqRefDrop ha.1 hb hpos
  | retireDrain => exact h.start (beq_iff_eq.1 ha) _
  | hold => exact h.hold

end State

theorem Reachable.sound {d : Build} {s : State} (h : Reachable d s) : s.Sound d := by
  induction h with
  | boot =>
    refine ⟨⟨?_, List.nodup_nil, List.nodup_nil, ?_, ?_, ?_, (fun r hr => absurd rfl hr), (fun r hr => absurd rfl hr), ?_,
      (fun r i hr => absurd rfl hr), (fun i b hb => by cases hb), (fun r i hr => absurd rfl hr)⟩,
      ⟨fun k => rfl, fun k hk => absurd rfl hk, (fun k f r hf => by cases hf), (fun k r e he => by cases he),
      (fun k f r hf => by cases hf), (fun k f r hf => by cases hf), fun _ => rfl⟩⟩
    · exact List.nodup_range.filter _
    · intro r
      show r ∈ (List.range d.slots).filter (fun r => decide (0 < r)) ↔ _
      rw [List.mem_filter, List.mem_range, decide_eq_true_eq]
      constructor
      · rintro ⟨h1, h2⟩
        exact ⟨h2, h1, rfl⟩
      · rintro ⟨h1, h2, -⟩
        exact ⟨h2, h1⟩
    · exact fun r => ⟨(fun hr => by cases hr), fun hr => by cases hr⟩
    · exact fun r => ⟨(fun hr => by cases hr), fun hr => by cases hr⟩
    · rintro line r (hk | hk) <;> cases hk
  | step _ a ha ih => exact ih.next ha

namespace State

variable {d : Build} {s s' : State} {k r i line : Nat}

/-- A record is there as it was, with the binding it names and that binding's reference. -/
structure Kept (s s' : State) (r : Nat) : Prop where
  state : s'.pubState r ≠ .free
  pub : s'.pub r = s.pub r
  binding : ∀ i b, s.pub r = .event i → s.bindings i = some b →
    ∃ b', s'.bindings i = some b' ∧ b'.line = b.line ∧ ∀ n, b.notify = some n → b'.notify = some n

theorem Kept.same (hr : s.pubState r ≠ .free) (h1 : s'.pubState r = s.pubState r) (h2 : s'.pub r = s.pub r)
    (h3 : s'.bindings = s.bindings) : Kept s s' r :=
  ⟨by rw [h1]; exact hr, h2, fun i b _ hb => ⟨b, by rw [h3]; exact hb, rfl, fun _ hn => hn⟩⟩

theorem Kept.rebind (hr : s.pubState r ≠ .free) {b e : Binding} (hb : s.bindings i = some b) (hl : e.line = b.line)
    (hn : ∀ n, b.notify = some n → e.notify = some n) :
    Kept s { s with bindings := update s.bindings i (some e) } r := by
  refine ⟨hr, rfl, fun j c _ hc => ?_⟩
  show ∃ c', update s.bindings i (some e) j = some c' ∧ _
  by_cases hji : j = i
  · subst hji
    rw [hb] at hc
    cases hc
    exact ⟨e, update_self _ _ _, hl, hn⟩
  · exact ⟨c, (update_of_ne hji _ _).trans hc, rfl, fun _ h => h⟩

theorem Kept.lineRelease (hr : s.pubState r ≠ .free) (line : Nat) (binding : Option Nat) :
    Kept s (s.lineRelease line binding) r := by
  unfold State.lineRelease
  cases s.word line with
  | none => exact .same hr rfl rfl rfl
  | retiring q => exact .same hr rfl rfl rfl
  | live q =>
    refine ⟨?_, rfl, fun i b _ hb => ⟨b, hb, rfl, fun _ h => h⟩⟩
    show update s.pubState q .pending r ≠ .free
    rw [update_apply]
    split_ifs
    · decide
    · exact hr

theorem Kept.finish (hc : Chained d s) (hr : s.pubState r ≠ .free) (t : Then) : Kept s (s.finish t) r := by
  rcases finish_cases s t with heq | ⟨q, rest, line, e, f, hf, -, he, heq⟩
  · rw [heq]
    exact .same hr rfl rfl rfl
  · have hfree : s.pubState q = .free := ((hc.free q).1 (by rw [hf]; exact List.mem_cons_self)).2.2
    have hqr : r ≠ q := by
      rintro rfl
      exact hr hfree
    rw [heq]
    refine ⟨?_, update_of_ne hqr _ _, fun i b _ hb => ⟨b, ?_, rfl, fun _ h => h⟩⟩
    · show update s.pubState q .live r ≠ .free
      rw [update_of_ne hqr]
      exact hr
    · show f i = some b
      rcases he with ⟨-, rfl⟩ | ⟨j, -, hj, rfl⟩
      · exact hb
      · refine (update_of_ne ?_ _ _).trans hb
        rintro rfl
        rw [hj] at hb
        cases hb

theorem Sound.hold_kept (h : Sound d s) {f : Frame} (hf : f ∈ s.frames k) (hr : holds f = some r) : Kept s (s.hold d) r := by
  obtain ⟨hc, hg⟩ := h
  have hne := hg.held k f r hf hr
  unfold State.hold
  cases hkop : s.kop with
  | idle => exact .same hne rfl rfl rfl
  | pass n t =>
    dsimp only
    split_ifs
    · exact .finish hc hne t
    · exact .same hne rfl rfl rfl
    · exact .finish hc hne t
    · refine ⟨?_, rfl, fun i b _ hb => ⟨b, hb, rfl, fun _ h => h⟩⟩
      show (if r ∈ s.pending then PubState.draining else s.pubState r) ≠ .free
      split_ifs
      · decide
      · exact hne
  | sampling j n t =>
    dsimp only
    split_ifs
    · exact .same hne rfl rfl rfl
    · exact .same hne rfl rfl rfl
  | checking j n t =>
    dsimp only
    split_ifs
    · exact .same hne rfl rfl rfl
    · exact .same hne rfl rfl rfl
    · exact .finish hc hne t
    · exact .same hne rfl rfl rfl
  | reclaiming rest n t =>
    cases rest with
    | nil => exact .same hne rfl rfl rfl
    | cons q rest =>
      have hph := hg.phase
      rw [State.phase, hkop] at hph
      have hq : s.pubState q = .draining := by
        refine (hc.draining q).1 ?_
        rw [hph, hkop]
        exact List.mem_cons_self
      have hrq : r ≠ q := by
        rintro rfl
        exact hg.unheld hkop hf hr hq
      obtain ⟨hkeep, -⟩ := hc.pubReclaim_bindings hq
      refine ⟨?_, update_of_ne hrq _ _, fun i b hi hb => ⟨b, ?_, rfl, fun _ h => h⟩⟩
      · show update s.pubState q .free r ≠ .free
        rw [update_of_ne hrq]
        exact hne
      · refine (hkeep i fun hk => hrq ?_).trans hb
        exact hc.event_inj hne (by rw [hq]; decide) hi hk

theorem Sound.next_kept (h : Sound d s) {f : Frame} (hf : f ∈ s.frames k) (hr : holds f = some r) (a : Act) :
    Kept s (s.next d a) r := by
  have hne := h.guarded.held k f r hf hr
  cases a with
  | enter j line => exact .same hne rfl rfl rfl
  | load j =>
    obtain ⟨g, heq⟩ := load_eq d s j
    rw [State.next, heq]
    exact .same hne rfl rfl rfl
  | read j =>
    obtain ⟨g, heq⟩ := read_eq s j
    rw [State.next, heq]
    exact .same hne rfl rfl rfl
  | leave j =>
    obtain ⟨e, g, heq⟩ := leave_eq s j
    rw [State.next, heq]
    exact .same hne rfl rfl rfl
  | attach line => exact .same hne rfl rfl rfl
  | detach line => exact .lineRelease hne line none
  | claim line i => exact .same hne rfl rfl rfl
  | bindNotify i n =>
    unfold State.next
    dsimp only
    cases hb : s.bindings i with
    | none => exact .same hne rfl rfl rfl
    | some b =>
      dsimp only
      split_ifs with hn
      · refine .rebind hne hb rfl fun m hm => ?_
        rw [hn] at hm
        cases hm
      · exact .same hne rfl rfl rfl
  | copy i =>
    unfold State.next
    dsimp only
    cases hb : s.bindings i with
    | none => exact .same hne rfl rfl rfl
    | some b => exact .rebind hne hb rfl fun _ h => h
  | refDrop i =>
    unfold State.next State.irqRefDrop
    dsimp only
    cases hb : s.bindings i with
    | none => exact .same hne rfl rfl rfl
    | some b =>
      have hkept := Kept.rebind (e := { b with refs := b.refs - 1 }) hne hb rfl fun _ h => h
      dsimp only
      split_ifs
      · have hrel := Kept.lineRelease hkept.state b.line (some i)
        refine ⟨hrel.state, hrel.pub, fun j c hj hc => ?_⟩
        obtain ⟨c', h1, h2, h3⟩ := hkept.binding j c hj hc
        obtain ⟨c'', g1, g2, g3⟩ := hrel.binding j c' hj h1
        exact ⟨c'', g1, g2.trans h2, fun n hn => g3 n (h3 n hn)⟩
      · exact hkept
  | retireDrain => exact .same hne rfl rfl rfl
  | hold => exact h.hold_kept hf hr

end State

open State

/-- In every run: a record that an entry of any core has read and not left behind is not reclaimed, nor is the binding it names
freed or that binding's notification given up, by any step; each record is on exactly one chain, or live; and the line of a
record that retires names it, so that it cannot be claimed, until the reclaim. -/
theorem record_reclaimed_safely {d : Build} {s : State} (h : Reachable d s) :
    (∀ k f r, f ∈ s.frames k → holds f = some r →
        (∀ e, f = .running (some r) e → s.pub r = e) ∧ s.pubState r ≠ .free ∧
          (∀ i, s.pub r = .event i → ∃ b, s.bindings i = some b) ∧ ∀ a, s.enabled d a = true → Kept s (s.next d a) r) ∧
      (s.free.Nodup ∧ s.pending.Nodup ∧ (s.draining ++ walk s.kop).Nodup ∧ ∀ r, 0 < r → r < d.slots →
        (r ∈ s.free ↔ s.pubState r = .free) ∧ (r ∈ s.pending ↔ s.pubState r = .pending) ∧
          (r ∈ s.draining ++ walk s.kop ↔ s.pubState r = .draining)) ∧
      ∀ r, s.pubState r = .pending ∨ s.pubState r = .draining → ∃ line, s.pubLine r = some line ∧ s.word line = .retiring r ∧
        s.finish (.attach line) = { s with kop := .idle } ∧ ∀ i, s.finish (.claim line i) = { s with kop := .idle } := by
  have hs := h.sound
  refine ⟨fun k f r hf hr => ⟨?_, hs.guarded.held k f r hf hr, ?_, fun a _ => hs.next_kept hf hr a⟩,
    ⟨hs.chained.freeNodup, hs.chained.pendingNodup, hs.chained.drainingNodup, fun r h0 h1 => ⟨?_, hs.chained.pending r,
      hs.chained.draining r⟩⟩, ?_⟩
  · rintro e rfl
    exact hs.guarded.read k r e hf
  · intro i hi
    obtain ⟨b, hb, -⟩ := hs.chained.event r i (hs.guarded.held k f r hf hr) hi
    exact ⟨b, hb⟩
  · rw [hs.chained.free r]
    exact ⟨fun hk => hk.2.2, fun hk => ⟨h0, h1, hk⟩⟩
  · intro r hr
    have hne : s.pubState r ≠ .free := by rcases hr with hr | hr <;> rw [hr] <;> decide
    obtain ⟨line, hl, hw⟩ := hs.chained.named r hne
    have hret : s.word line = .retiring r := by
      rcases hr with hr | hr <;> rw [hr] at hw <;> exact hw
    refine ⟨line, hl, hret, ?_, fun i => ?_⟩
    · unfold finish
      dsimp only
      rw [hret]
    · unfold finish
      dsimp only
      rw [hret]

def twoCores : Build := ⟨2, 4⟩

/-- Line 5 is claimed, its interrupt runs on core 1, and its last capability closes meanwhile. -/
def closedUnderway : State :=
  (((((((boot twoCores).next twoCores (.claim 5 0)).next twoCores .hold).next twoCores (.enter 1 5)).next twoCores (.load 1)).next
    twoCores (.read 1)).next twoCores (.refDrop 0)).next twoCores .hold

theorem closedUnderway_reachable : Reachable twoCores closedUnderway :=
  ((((((Reachable.boot.step (.claim 5 0) (by decide)).step .hold (by decide)).step (.enter 1 5) (by decide)).step (.load 1)
    (by decide)).step (.read 1) (by decide)).step (.refDrop 0) (by decide)).step .hold (by decide)

theorem record_reclaimed_safely_closedUnderway : closedUnderway.pubState 1 ≠ .free ∧
    Kept closedUnderway (closedUnderway.hold twoCores) 1 :=
  have h := (record_reclaimed_safely closedUnderway_reachable).1 1 (.running (some 1) (.event 0)) 1 (by decide) rfl
  ⟨h.2.1, h.2.2.2 .hold (by decide)⟩

end Publish
end KickOS
