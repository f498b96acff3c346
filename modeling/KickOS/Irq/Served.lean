import KickOS.Irq.Line

/-! The invariant of the lines on one core, and what keeps it: a masked line with a notification is owed a rearm or its bit is
pending, and one without is masked. -/

namespace KickOS
namespace Irq
open Function (update update_apply update_eq_self_iff update_idem update_of_ne update_self)

theorem hits_iff (mask : BitVec 32) (k : Fin 32) : hits mask k = true ↔ mask.getLsbD k = true := by
  rw [hits, bit, BitVec.and_twoPow]
  cases hk : mask.getLsbD k with
  | true =>
    have hne : BitVec.twoPow 32 k ≠ 0 := by
      intro h
      have hbit : (BitVec.twoPow 32 k).getLsbD k = (0 : BitVec 32).getLsbD k := by rw [h]
      rw [BitVec.getLsbD_twoPow] at hbit
      simp at hbit
    simpa using hne
  | false => simp

theorem update_some {α : Type} {f : Nat → Option α} {i j : Nat} {v e : α} (h : update f i (some v) j = some e) :
    (j = i ∧ e = v) ∨ (j ≠ i ∧ f j = some e) := by
  rw [update_apply] at h
  split_ifs at h with hji
  · exact .inl ⟨hji, (Option.some.inj h).symm⟩
  · exact .inr ⟨hji, h⟩

namespace State

variable {s s' : State} {i n c line : Nat} {extra : Option Nat}

/-- `extra` names the object that counts one reference more than it has. -/
structure Served (extra : Option Nat) (s : State) : Prop where
  chain : ∀ n x, s.notifies n = some x → x.signallers.Nodup ∧
    ∀ i, i ∈ x.signallers ↔ ∃ b, s.bindings i = some b ∧ b.notify = some n
  noted : ∀ i b n, s.bindings i = some b → b.notify = some n → ∃ x, s.notifies n = some x
  seated : ∀ i b, s.bindings i = some b → s.table b.line = .event i
  owner : ∀ line i, s.table line = .event i → ∃ b, s.bindings i = some b ∧ b.line = line
  bare : ∀ i b, s.bindings i = some b → b.notify = none →
    s.masked b.line = true ∧ b.needsRearm = true ∧ b.armedOnce = false
  owed : ∀ i b n x, s.bindings i = some b → b.notify = some n → s.notifies n = some x → s.masked b.line = true →
    b.needsRearm = true ∨ x.pending.getLsbD b.badge = true
  default : ∀ line, s.table line = .default → s.masked line = true
  refs : ∀ n x, s.notifies n = some x →
    x.refs = s.caps n + x.bound.isSome.toNat + x.signallers.length + (if extra = some n then 1 else 0)
  bound : ∀ c n, s.notifyBound c = some n ↔ ∃ x, s.notifies n = some x ∧ x.bound = some c

theorem Served.same (h : Served extra s) (h1 : s'.masked = s.masked) (h2 : s'.table = s.table) (h3 : s'.bindings = s.bindings)
    (h4 : s'.notifies = s.notifies) (h5 : s'.caps = s.caps) (h6 : s'.notifyBound = s.notifyBound) : Served extra s' := by
  refine ⟨?_, ?_, ?_, ?_, ?_, ?_, ?_, ?_, ?_⟩
  · rw [h4, h3]
    exact h.chain
  · rw [h3, h4]
    exact h.noted
  · rw [h3, h2]
    exact h.seated
  · rw [h2, h3]
    exact h.owner
  · rw [h3, h1]
    exact h.bare
  · rw [h3, h4, h1]
    exact h.owed
  · rw [h2, h1]
    exact h.default
  · rw [h4, h5]
    exact h.refs
  · rw [h6, h4]
    exact h.bound

theorem Served.line_ne (h : Served extra s) {j : Nat} {b e : Binding} (hb : s.bindings i = some b) (he : s.bindings j = some e)
    (hij : j ≠ i) : e.line ≠ b.line := by
  intro hl
  have hj := h.seated j e he
  rw [hl, h.seated i b hb] at hj
  exact hij (Handler.event.inj hj).symm

/-- The binding in a slot changes its rearm marks or its count, and its own line may change its mask. -/
theorem Served.rebind (h : Served extra s) {b b' : Binding} (hb : s.bindings i = some b)
    (hs : s'.bindings = update s.bindings i (some b')) (hl : b'.line = b.line) (hn : b'.notify = b.notify)
    (hk : b'.badge = b.badge) (h1 : ∀ l, l ≠ b.line → s'.masked l = s.masked l) (h2 : s'.table = s.table)
    (h4 : s'.notifies = s.notifies) (h5 : s'.caps = s.caps) (h6 : s'.notifyBound = s.notifyBound)
    (hbare : b.notify = none → s'.masked b.line = true ∧ b'.needsRearm = true ∧ b'.armedOnce = false)
    (howed : ∀ n x, b.notify = some n → s.notifies n = some x → s'.masked b.line = true →
      b'.needsRearm = true ∨ x.pending.getLsbD b.badge = true) : Served extra s' := by
  have hat : ∀ j e, s'.bindings j = some e → (j = i ∧ e = b') ∨ (j ≠ i ∧ s.bindings j = some e) := by
    intro j e hj
    rw [hs] at hj
    exact update_some hj
  have hself : s'.bindings i = some b' := by rw [hs, update_self]
  have hother : ∀ j, j ≠ i → s'.bindings j = s.bindings j := fun j hj => by rw [hs, update_of_ne hj]
  refine ⟨?_, ?_, ?_, ?_, ?_, ?_, ?_, ?_, ?_⟩
  · intro n x hx
    rw [h4] at hx
    obtain ⟨c1, c2⟩ := h.chain n x hx
    refine ⟨c1, fun j => (c2 j).trans ?_⟩
    by_cases hj : j = i
    · subst hj
      constructor
      · rintro ⟨e, he, hne⟩
        rw [hb] at he
        cases he
        exact ⟨b', hself, hn.trans hne⟩
      · rintro ⟨e, he, hne⟩
        rw [hself] at he
        cases he
        exact ⟨b, hb, hn.symm.trans hne⟩
    · rw [hother j hj]
  · intro j e n hj hne
    rw [h4]
    rcases hat j e hj with ⟨rfl, rfl⟩ | ⟨-, hj⟩
    · exact h.noted j b n hb (hn.symm.trans hne)
    · exact h.noted j e n hj hne
  · intro j e hj
    rw [h2]
    rcases hat j e hj with ⟨rfl, rfl⟩ | ⟨-, hj⟩
    · rw [hl]
      exact h.seated j b hb
    · exact h.seated j e hj
  · intro line j hj
    rw [h2] at hj
    obtain ⟨e, he, hle⟩ := h.owner line j hj
    by_cases hji : j = i
    · subst hji
      rw [hb] at he
      cases he
      exact ⟨b', hself, hl.trans hle⟩
    · exact ⟨e, (hother j hji).trans he, hle⟩
  · intro j e hj hne
    rcases hat j e hj with ⟨rfl, rfl⟩ | ⟨hji, hj⟩
    · rw [hl]
      exact hbare (hn.symm.trans hne)
    · rw [h1 _ (h.line_ne hb hj hji)]
      exact h.bare j e hj hne
  · intro j e n x hj hne hx hm
    rw [h4] at hx
    rcases hat j e hj with ⟨rfl, rfl⟩ | ⟨hji, hj⟩
    · rw [hl] at hm
      rw [hk]
      exact howed n x (hn.symm.trans hne) hx hm
    · rw [h1 _ (h.line_ne hb hj hji)] at hm
      exact h.owed j e n x hj hne hx hm
  · intro line hline
    rw [h2] at hline
    have hne : line ≠ b.line := by
      rintro rfl
      rw [h.seated i b hb] at hline
      cases hline
    rw [h1 line hne]
    exact h.default line hline
  · rw [h4, h5]
    exact h.refs
  · rw [h6, h4]
    exact h.bound

theorem Served.renote (h : Served extra s) {x x' : Notification} (hx : s.notifies n = some x)
    (hs : s'.notifies = update s.notifies n (some x')) (hg : x'.signallers = x.signallers) (hbd : x'.bound = x.bound)
    (hr : x'.refs = x.refs) (h1 : s'.masked = s.masked) (h2 : s'.table = s.table) (h3 : s'.bindings = s.bindings)
    (h5 : s'.caps = s.caps) (h6 : s'.notifyBound = s.notifyBound)
    (howed : ∀ i b, s.bindings i = some b → b.notify = some n → s.masked b.line = true →
      b.needsRearm = true ∨ x'.pending.getLsbD b.badge = true) : Served extra s' := by
  have hself : s'.notifies n = some x' := by rw [hs, update_self]
  have hother : ∀ m, m ≠ n → s'.notifies m = s.notifies m := fun m hm => by rw [hs, update_of_ne hm]
  refine ⟨?_, ?_, ?_, ?_, ?_, ?_, ?_, ?_, ?_⟩
  · intro m y hy
    rw [h3]
    by_cases hm : m = n
    · subst hm
      rw [hself] at hy
      cases hy
      rw [hg]
      exact h.chain m x hx
    · rw [hother m hm] at hy
      exact h.chain m y hy
  · intro i b m hb hm
    rw [h3] at hb
    by_cases hmn : m = n
    · rw [hmn]
      exact ⟨x', hself⟩
    · rw [hother m hmn]
      exact h.noted i b m hb hm
  · rw [h3, h2]
    exact h.seated
  · rw [h2, h3]
    exact h.owner
  · rw [h3, h1]
    exact h.bare
  · intro i b m y hb hm hy hmask
    rw [h3] at hb
    rw [h1] at hmask
    by_cases hmn : m = n
    · subst hmn
      rw [hself] at hy
      cases hy
      exact howed i b hb hm hmask
    · rw [hother m hmn] at hy
      exact h.owed i b m y hb hm hy hmask
  · rw [h2, h1]
    exact h.default
  · intro m y hy
    rw [h5]
    by_cases hm : m = n
    · subst hm
      rw [hself] at hy
      cases hy
      rw [hr, hbd, hg]
      exact h.refs m x hx
    · rw [hother m hm] at hy
      exact h.refs m y hy
  · intro c m
    rw [h6, h.bound c m]
    by_cases hm : m = n
    · subst hm
      rw [hself, hx]
      constructor
      · rintro ⟨y, hy, hc⟩
        cases hy
        exact ⟨x', rfl, hbd.trans hc⟩
      · rintro ⟨y, hy, hc⟩
        cases hy
        exact ⟨x, rfl, hbd.symm.trans hc⟩
    · rw [hother m hm]

/-- A rearm does nothing, to a line that needs none or that signals nothing, or it opens the line. -/
theorem rearmLocked_cases (s : State) (i : Nat) :
    (s.rearmLocked i = s ∧ ∀ b, s.bindings i = some b → b.needsRearm = false ∨ b.notify = none) ∨
      ∃ b l, s.bindings i = some b ∧ b.notify ≠ none ∧ s.rearmLocked i =
        { s with
          latched := l
          bindings := update s.bindings i (some { b with needsRearm := false, armedOnce := true })
          masked := update s.masked b.line false } := by
  unfold rearmLocked
  cases hb : s.bindings i with
  | none => exact .inl ⟨rfl, fun b hk => by cases hk⟩
  | some b =>
    dsimp only
    split_ifs with hr hn
    · refine .inl ⟨rfl, fun e he => ?_⟩
      cases he
      exact .inl hr
    · refine .inl ⟨rfl, fun e he => ?_⟩
      cases he
      exact .inr hn
    · exact .inr ⟨b, _, rfl, hn, rfl⟩
    · exact .inr ⟨b, s.latched, rfl, hn, rfl⟩

theorem Served.rearmLocked (h : Served extra s) (i : Nat) : Served extra (s.rearmLocked i) := by
  obtain ⟨heq, -⟩ | ⟨b, l, hb, hn, heq⟩ := rearmLocked_cases s i
  · rw [heq]
    exact h
  · rw [heq]
    refine h.rebind hb rfl rfl rfl rfl (fun l hl => update_of_ne hl _ _) rfl rfl rfl rfl
      (fun hk => absurd hk hn) fun m x _ _ hm => ?_
    have hopen : update s.masked b.line false b.line = true := hm
    rw [update_self] at hopen
    cases hopen

/-- What a rearm of any lines keeps: the objects and the tables, and a line once open. -/
structure Rearmed (s s' : State) : Prop where
  notifies : s'.notifies = s.notifies
  wait : s'.wait = s.wait
  notifyBound : s'.notifyBound = s.notifyBound
  opened : ∀ l, s.masked l = false → s'.masked l = false
  same : ∀ i b, s.bindings i = some b →
    ∃ b', s'.bindings i = some b' ∧ b'.line = b.line ∧ b'.notify = b.notify ∧ b'.badge = b.badge

theorem Rearmed.refl (s : State) : Rearmed s s :=
  ⟨rfl, rfl, rfl, fun _ h => h, fun _ b h => ⟨b, h, rfl, rfl, rfl⟩⟩

theorem Rearmed.trans {s'' : State} (h : Rearmed s s') (h' : Rearmed s' s'') : Rearmed s s'' := by
  refine ⟨h'.notifies.trans h.notifies, h'.wait.trans h.wait, h'.notifyBound.trans h.notifyBound,
    fun l hl => h'.opened l (h.opened l hl), fun i b hb => ?_⟩
  obtain ⟨b1, k1, k2, k3, k4⟩ := h.same i b hb
  obtain ⟨b2, m1, m2, m3, m4⟩ := h'.same i b1 k1
  exact ⟨b2, m1, m2.trans k2, m3.trans k3, m4.trans k4⟩

theorem rearmLocked_rearmed (s : State) (i : Nat) : Rearmed s (s.rearmLocked i) := by
  obtain ⟨heq, -⟩ | ⟨b, l, hb, -, heq⟩ := rearmLocked_cases s i
  · rw [heq]
    exact .refl s
  · rw [heq]
    refine ⟨rfl, rfl, rfl, fun k hk => ?_, fun j e he => ?_⟩
    · show update s.masked b.line false k = false
      rw [update_apply]
      split_ifs
      · rfl
      · exact hk
    · show ∃ b', update s.bindings i _ j = some b' ∧ _
      rw [update_apply]
      split_ifs with hji
      · rw [hji, hb] at he
        cases he
        exact ⟨_, rfl, rfl, rfl, rfl⟩
      · exact ⟨e, he, rfl, rfl, rfl⟩

theorem signallersRearm_cons (s : State) (mask : BitVec 32) (i : Nat) (rest : List Nat) :
    s.signallersRearm mask (i :: rest) = s.signallersRearm mask rest ∨
      s.signallersRearm mask (i :: rest) = (s.rearmLocked i).signallersRearm mask rest := by
  rw [signallersRearm]
  cases s.bindings i with
  | none => exact .inl rfl
  | some b =>
    dsimp only
    split_ifs
    · exact .inr rfl
    · exact .inl rfl

theorem Served.signallersRearm (mask : BitVec 32) (l : List Nat) :
    ∀ {s : State}, Served extra s → Served extra (s.signallersRearm mask l) := by
  induction l with
  | nil => exact fun h => h
  | cons i rest ih =>
    intro s h
    rcases signallersRearm_cons s mask i rest with heq | heq
    · rw [heq]
      exact ih h
    · rw [heq]
      exact ih (h.rearmLocked i)

theorem signallersRearm_rearmed (mask : BitVec 32) (l : List Nat) : ∀ s : State, Rearmed s (s.signallersRearm mask l) := by
  induction l with
  | nil => exact fun s => .refl s
  | cons i rest ih =>
    intro s
    rcases signallersRearm_cons s mask i rest with heq | heq
    · rw [heq]
      exact ih s
    · rw [heq]
      exact (rearmLocked_rearmed s i).trans (ih _)

/-- A line that a rearm is owed, on a chain that is walked with its bit, is open behind the walk. -/
theorem signallersRearm_opens {mask : BitVec 32} (l : List Nat) : ∀ {s : State} {i : Nat} {b : Binding}, i ∈ l →
    s.bindings i = some b → b.notify ≠ none → b.needsRearm = true → hits mask b.badge = true →
    (s.signallersRearm mask l).masked b.line = false := by
  induction l with
  | nil => exact fun hi => by cases hi
  | cons j rest ih =>
    intro s i b hi hb hn hr hk
    by_cases hij : i = j
    · subst hij
      have hstep : s.signallersRearm mask (i :: rest) = (s.rearmLocked i).signallersRearm mask rest := by
        rw [signallersRearm, hb]
        dsimp only
        rw [if_pos hk]
      rw [hstep]
      apply (signallersRearm_rearmed mask rest _).opened
      obtain ⟨-, hidle⟩ | ⟨e, l, he, -, heq⟩ := rearmLocked_cases s i
      · rcases hidle b hb with hk | hk
        · rw [hr] at hk
          cases hk
        · exact absurd hk hn
      · rw [heq]
        rw [hb] at he
        cases he
        exact update_self _ _ _
    · have hrest : i ∈ rest := (List.mem_cons.1 hi).resolve_left hij
      rcases signallersRearm_cons s mask j rest with heq | heq
      · rw [heq]
        exact ih hrest hb hn hr hk
      · rw [heq]
        refine ih hrest (Eq.trans ?_ hb) hn hr hk
        obtain ⟨heq', -⟩ | ⟨e, l, -, -, heq'⟩ := rearmLocked_cases s j
        · rw [heq']
        · rw [heq']
          exact update_of_ne hij _ _

theorem signallersOweRearm_eq (taken : BitVec 32) (l : List Nat) : ∀ s : State,
    ∃ f, s.signallersOweRearm taken l = { s with bindings := f } ∧
      (∀ i, i ∉ l → f i = s.bindings i) ∧
      ∀ i b, s.bindings i = some b → ∃ b', f i = some b' ∧ b'.line = b.line ∧ b'.notify = b.notify ∧ b'.badge = b.badge ∧
        (b.needsRearm = true → b'.needsRearm = true) ∧ (i ∈ l → hits taken b.badge = true → b'.needsRearm = true) := by
  induction l with
  | nil => exact fun s => ⟨s.bindings, rfl, fun _ _ => rfl, fun i b hb => ⟨b, hb, rfl, rfl, rfl, id, fun hi => by cases hi⟩⟩
  | cons j rest ih =>
    intro s
    rw [signallersOweRearm]
    cases hj : s.bindings j with
    | none =>
      obtain ⟨f, heq, hout, hin⟩ := ih s
      refine ⟨f, heq, fun i hi => hout i fun hk => hi (List.mem_cons_of_mem _ hk), fun i b hb => ?_⟩
      obtain ⟨b', k1, k2, k3, k4, k5, k6⟩ := hin i b hb
      refine ⟨b', k1, k2, k3, k4, k5, fun hi => k6 ((List.mem_cons.1 hi).resolve_left ?_)⟩
      rintro rfl
      rw [hj] at hb
      cases hb
    | some e =>
      dsimp only
      split_ifs with hk
      · obtain ⟨f, heq, hout, hin⟩ := ih (s.setBinding j { e with needsRearm := true })
        refine ⟨f, heq, fun i hi => ?_, fun i b hb => ?_⟩
        · rw [List.mem_cons, not_or] at hi
          exact (hout i hi.2).trans (update_of_ne hi.1 _ _)
        · by_cases hij : i = j
          · subst hij
            rw [hj] at hb
            cases hb
            obtain ⟨b', k1, k2, k3, k4, k5, -⟩ := hin i _ (update_self _ _ _)
            exact ⟨b', k1, k2, k3, k4, fun _ => k5 rfl, fun _ _ => k5 rfl⟩
          · obtain ⟨b', k1, k2, k3, k4, k5, k6⟩ := hin i b ((update_of_ne hij _ _).trans hb)
            exact ⟨b', k1, k2, k3, k4, k5, fun hi => k6 ((List.mem_cons.1 hi).resolve_left hij)⟩
      · obtain ⟨f, heq, hout, hin⟩ := ih s
        refine ⟨f, heq, fun i hi => hout i fun hk => hi (List.mem_cons_of_mem _ hk), fun i b hb => ?_⟩
        obtain ⟨b', k1, k2, k3, k4, k5, k6⟩ := hin i b hb
        refine ⟨b', k1, k2, k3, k4, k5, fun hi hit => ?_⟩
        rcases List.mem_cons.1 hi with rfl | hi
        · rw [hj] at hb
          cases hb
          exact absurd hit hk
        · exact k6 hi hit

theorem Served.signallersOweRearm (taken : BitVec 32) (l : List Nat) :
    ∀ {s : State}, Served extra s → Served extra (s.signallersOweRearm taken l) := by
  induction l with
  | nil => exact fun h => h
  | cons j rest ih =>
    intro s h
    rw [State.signallersOweRearm]
    cases hj : s.bindings j with
    | none => exact ih h
    | some e =>
      dsimp only
      split_ifs
      · refine ih (h.rebind hj rfl rfl rfl rfl (fun _ _ => rfl) rfl rfl rfl rfl (fun hn => ?_) fun _ _ _ _ _ => .inl rfl)
        obtain ⟨k1, -, k3⟩ := h.bare j e hj hn
        exact ⟨k1, rfl, k3⟩
      · exact ih h

/-- A take puts its bits into the chain's marks: the objects change first in the source, which makes no difference. -/
theorem signallersOweRearm_setNote (taken : BitVec 32) (x : Notification) (l : List Nat) : ∀ s : State,
    (s.setNote n x).signallersOweRearm taken l = (s.signallersOweRearm taken l).setNote n x := by
  induction l with
  | nil => exact fun _ => rfl
  | cons j rest ih =>
    intro s
    have hsame : (s.setNote n x).bindings j = s.bindings j := rfl
    rw [signallersOweRearm, signallersOweRearm, hsame]
    cases s.bindings j with
    | none => exact ih s
    | some b =>
      dsimp only
      split_ifs
      · exact ih (s.setBinding j { b with needsRearm := true })
      · exact ih s

theorem Served.takePending (h : Served extra s) (n : Nat) (mask : BitVec 32) : Served extra (s.takePending n mask).1 := by
  unfold State.takePending
  cases hx : s.notifies n with
  | none => exact h
  | some x =>
    dsimp only
    rw [signallersOweRearm_setNote]
    have howe := h.signallersOweRearm (x.pending &&& mask) x.signallers
    obtain ⟨f, heq, hout, hin⟩ := signallersOweRearm_eq (x.pending &&& mask) x.signallers s
    rw [heq] at howe ⊢
    refine howe.renote hx rfl rfl rfl rfl rfl rfl rfl rfl rfl ?_
    intro i b hb hn hm
    cases hr : b.needsRearm with
    | true => exact .inl rfl
    | false =>
      have hpend := (howe.owed i b n x hb hn hx hm).resolve_left (by rw [hr]; decide)
      have hmem : i ∈ x.signallers := ((howe.chain n x hx).2 i).2 ⟨b, hb, hn⟩
      obtain ⟨e, he, -⟩ := ((h.chain n x hx).2 i).1 hmem
      obtain ⟨b', k1, -, -, k4, -, k6⟩ := hin i e he
      have hb' : f i = some b := hb
      rw [k1] at hb'
      cases hb'
      have hmiss : ¬(x.pending &&& mask).getLsbD b.badge = true := by
        intro hit
        have hneeds := k6 hmem (by rw [hits_iff, ← k4]; exact hit)
        rw [hr] at hneeds
        cases hneeds
      right
      rw [BitVec.getLsbD_and, BitVec.getLsbD_not, hpend, Bool.eq_false_of_not_eq_true hmiss]
      simp

theorem raiseWake_eq (s : State) (n t : Nat) : ∃ w, s.raiseWake n t = { s with wait := w } := by
  unfold raiseWake
  cases s.wait t with
  | parked m mask =>
    dsimp only
    split_ifs
    · exact ⟨_, rfl⟩
    · exact ⟨s.wait, rfl⟩
  | fused opened => exact ⟨_, rfl⟩
  | _ => exact ⟨s.wait, rfl⟩

theorem notifyRaise_eq (bits : BitVec 32) {x : Notification} (hx : s.notifies n = some x) : ∃ w, s.notifyRaise n bits =
    { s with notifies := update s.notifies n (some { x with pending := x.pending ||| bits }), wait := w } := by
  unfold notifyRaise
  rw [hx]
  dsimp only
  split
  · exact ⟨s.wait, rfl⟩
  · split_ifs
    · exact ⟨s.wait, rfl⟩
    · obtain ⟨w, heq⟩ := raiseWake_eq (s.setNote n { x with pending := x.pending ||| bits }) n _
      exact ⟨w, heq⟩

theorem notifyRaise_none (bits : BitVec 32) (hx : s.notifies n = none) : s.notifyRaise n bits = s := by
  unfold notifyRaise
  rw [hx]

theorem Served.notifyRaise (h : Served extra s) (n : Nat) (bits : BitVec 32) : Served extra (s.notifyRaise n bits) := by
  cases hx : s.notifies n with
  | none =>
    rw [notifyRaise_none bits hx]
    exact h
  | some x =>
    obtain ⟨w, heq⟩ := notifyRaise_eq bits hx
    rw [heq]
    refine h.renote hx rfl rfl rfl rfl rfl rfl rfl rfl rfl fun i b hb hn hm => ?_
    refine (h.owed i b n x hb hn hx hm).imp id fun hp => ?_
    rw [BitVec.getLsbD_or, hp, Bool.true_or]

theorem raiseWake_mask (s : State) (n t line : Nat) : (s.mask line).raiseWake n t = (s.raiseWake n t).mask line := by
  have hw : (s.mask line).wait t = s.wait t := rfl
  unfold raiseWake
  rw [hw]
  cases s.wait t with
  | parked m mask =>
    dsimp only
    split_ifs <;> rfl
  | _ => rfl

theorem notifyRaise_mask (bits : BitVec 32) (line : Nat) :
    (s.mask line).notifyRaise n bits = (s.notifyRaise n bits).mask line := by
  have hsame : (s.mask line).notifies n = s.notifies n := rfl
  unfold notifyRaise
  rw [hsame]
  cases s.notifies n with
  | none => rfl
  | some x =>
    dsimp only
    split
    · rfl
    · split_ifs
      · rfl
      · exact raiseWake_mask (s.setNote n { x with pending := x.pending ||| bits }) n _ line

theorem Served.irqEventIsr (h : Served extra s) (i : Nat) : Served extra (s.irqEventIsr i) := by
  unfold State.irqEventIsr
  cases hb : s.bindings i with
  | none => exact h
  | some b =>
    dsimp only
    cases hn : b.notify with
    | none =>
      obtain ⟨k1, k2, k3⟩ := h.bare i b hb hn
      refine h.same ?_ rfl rfl rfl rfl rfl
      exact update_eq_self_iff.2 k1.symm
    | some n =>
      dsimp only
      rw [notifyRaise_mask]
      obtain ⟨x, hx⟩ := h.noted i b n hb hn
      have hraised := h.notifyRaise n (bit b.badge)
      obtain ⟨w, heq⟩ := notifyRaise_eq (bit b.badge) hx
      rw [heq] at hraised ⊢
      refine hraised.rebind hb (update_eq_self_iff.2 hb.symm).symm rfl rfl rfl
        (fun l hl => update_of_ne hl _ _) rfl rfl rfl rfl (fun hk => by rw [hn] at hk; cases hk) ?_
      intro m y hm hy _
      rw [hn] at hm
      cases hm
      have hy' : update s.notifies n (some { x with pending := x.pending ||| bit b.badge }) n = some y := hy
      rw [update_self] at hy'
      cases hy'
      right
      rw [BitVec.getLsbD_or, bit, BitVec.getLsbD_twoPow]
      simp

theorem Served.isrIrq (h : Served extra s) (line : Nat) : Served extra (s.isrIrq line) := by
  unfold State.isrIrq
  cases ht : s.table line with
  | default =>
    refine h.same ?_ rfl rfl rfl rfl rfl
    exact update_eq_self_iff.2 (h.default line ht).symm
  | event i => exact h.irqEventIsr i
  | kernel => exact h

theorem Served.irqClaim (h : Served extra s) (i line : Nat) (level : Bool) : Served extra (s.irqClaim i line level) := by
  unfold State.irqClaim
  split_ifs with hno
  · exact h
  · rw [not_or, not_not, not_not] at hno
    obtain ⟨htable, hfree⟩ := hno
    dsimp only
    have hline : ∀ j e, s.bindings j = some e → e.line ≠ line := by
      rintro j e he rfl
      rw [h.seated j e he] at htable
      cases htable
    refine ⟨?_, ?_, ?_, ?_, ?_, ?_, ?_, h.refs, h.bound⟩
    · intro n x hx
      obtain ⟨c1, c2⟩ := h.chain n x hx
      refine ⟨c1, fun j => (c2 j).trans ⟨?_, ?_⟩⟩
      · rintro ⟨e, he, hn⟩
        refine ⟨e, (update_of_ne ?_ _ _).trans he, hn⟩
        rintro rfl
        rw [hfree] at he
        cases he
      · rintro ⟨e, he, hn⟩
        rcases update_some he with ⟨-, rfl⟩ | ⟨-, he⟩
        · cases hn
        · exact ⟨e, he, hn⟩
    · intro j e n hj hn
      rcases update_some hj with ⟨-, rfl⟩ | ⟨-, hj⟩
      · cases hn
      · exact h.noted j e n hj hn
    · intro j e hj
      rcases update_some hj with ⟨rfl, rfl⟩ | ⟨-, hj⟩
      · exact update_self _ _ _
      · exact (update_of_ne (hline j e hj) _ _).trans (h.seated j e hj)
    · intro l j hl
      have hl' : update s.table line (.event i) l = .event j := hl
      rw [update_apply] at hl'
      split_ifs at hl' with hll
      · cases hl'
        exact ⟨_, update_self _ _ _, hll.symm⟩
      · obtain ⟨e, he, hle⟩ := h.owner l j hl'
        refine ⟨e, (update_of_ne ?_ _ _).trans he, hle⟩
        rintro rfl
        rw [hfree] at he
        cases he
    · intro j e hj hn
      rcases update_some hj with ⟨-, rfl⟩ | ⟨-, hj⟩
      · exact ⟨h.default line htable, rfl, rfl⟩
      · exact h.bare j e hj hn
    · intro j e n x hj hn
      rcases update_some hj with ⟨-, rfl⟩ | ⟨-, hj⟩
      · cases hn
      · exact h.owed j e n x hj hn
    · intro l hl
      have hl' : update s.table line (.event i) l = .default := hl
      rw [update_apply] at hl'
      split_ifs at hl'
      exact h.default l hl'

theorem Served.bound_update (h : Served extra s) {x x' : Notification} (hx : s.notifies n = some x) (hb : x'.bound = x.bound)
    (c m : Nat) : s.notifyBound c = some m ↔ ∃ y, update s.notifies n (some x') m = some y ∧ y.bound = some c := by
  rw [h.bound c m, update_apply]
  split_ifs with hmn
  · rw [hmn, hx]
    constructor
    · rintro ⟨y, hy, hc⟩
      cases hy
      exact ⟨x', rfl, hb.trans hc⟩
    · rintro ⟨y, hy, hc⟩
      cases hy
      exact ⟨x, rfl, hb.symm.trans hc⟩
  · rfl

/-- The binding goes into the chain of the object it is bound to, and into no other. -/
theorem Served.chain_update (h : Served extra s) {b b' : Binding} {x x' : Notification} (hb : s.bindings i = some b)
    (hbare : b.notify = none) (hx : s.notifies n = some x) (hg : x'.signallers = i :: x.signallers)
    (hn' : b'.notify = some n) (m : Nat) (y : Notification) (hy : update s.notifies n (some x') m = some y) :
    y.signallers.Nodup ∧ ∀ j, j ∈ y.signallers ↔ ∃ e, update s.bindings i (some b') j = some e ∧ e.notify = some m := by
  have hfree : ∀ k e, s.bindings i = some e → e.notify ≠ some k := by
    intro k e he hn
    rw [hb] at he
    cases he
    rw [hbare] at hn
    cases hn
  rcases update_some hy with ⟨rfl, rfl⟩ | ⟨hmn, hy⟩
  · obtain ⟨c1, c2⟩ := h.chain m x hx
    have hnew : i ∉ x.signallers := by
      intro hi
      obtain ⟨e, he, hn⟩ := (c2 i).1 hi
      exact hfree m e he hn
    rw [hg]
    refine ⟨List.nodup_cons.2 ⟨hnew, c1⟩, fun j => ?_⟩
    rw [List.mem_cons]
    constructor
    · rintro (rfl | hj)
      · exact ⟨_, update_self _ _ _, hn'⟩
      · obtain ⟨e, he, hn⟩ := (c2 j).1 hj
        refine ⟨e, (update_of_ne ?_ _ _).trans he, hn⟩
        rintro rfl
        exact hnew hj
    · rintro ⟨e, he, hn⟩
      rcases update_some he with ⟨rfl, -⟩ | ⟨-, he⟩
      · exact .inl rfl
      · exact .inr ((c2 j).2 ⟨e, he, hn⟩)
  · obtain ⟨c1, c2⟩ := h.chain m y hy
    refine ⟨c1, fun j => (c2 j).trans ⟨?_, ?_⟩⟩
    · rintro ⟨e, he, hn⟩
      refine ⟨e, (update_of_ne ?_ _ _).trans he, hn⟩
      rintro rfl
      exact hfree m e he hn
    · rintro ⟨e, he, hn⟩
      rcases update_some he with ⟨-, rfl⟩ | ⟨-, he⟩
      · exact absurd (Option.some.inj (hn.symm.trans hn')) hmn
      · exact ⟨e, he, hn⟩

theorem Served.irqBindNotify (h : Served none s) (i n : Nat) (badge : Fin 32) (fits : Bool) :
    Served none (s.irqBindNotify i n badge fits) := by
  unfold State.irqBindNotify
  cases hb : s.bindings i with
  | none => exact h
  | some b =>
    cases hx : s.notifies n with
    | none => exact h
    | some x =>
      dsimp only
      split_ifs with hno
      · exact h
      · rw [not_or, not_not] at hno
        have hbare := hno.1
        refine ⟨h.chain_update hb hbare hx rfl rfl, ?_, ?_, ?_, ?_, ?_, h.default, ?_, h.bound_update hx rfl⟩
        · intro j e m hj hm
          have hlive : ∀ k y, s.notifies k = some y → ∃ z, update s.notifies n
              (some { x with refs := x.refs + 1, signallers := i :: x.signallers }) k = some z := by
            intro k y hy
            rw [update_apply]
            split_ifs
            · exact ⟨_, rfl⟩
            · exact ⟨y, hy⟩
          rcases update_some hj with ⟨-, rfl⟩ | ⟨-, hj⟩
          · cases hm
            exact hlive n x hx
          · obtain ⟨y, hy⟩ := h.noted j e m hj hm
            exact hlive m y hy
        · intro j e hj
          rcases update_some hj with ⟨rfl, rfl⟩ | ⟨-, hj⟩
          · exact h.seated j b hb
          · exact h.seated j e hj
        · intro l j hl
          obtain ⟨e, he, hle⟩ := h.owner l j hl
          by_cases hji : j = i
          · subst hji
            rw [hb] at he
            cases he
            exact ⟨_, update_self _ _ _, hle⟩
          · exact ⟨e, (update_of_ne hji _ _).trans he, hle⟩
        · intro j e hj hn
          rcases update_some hj with ⟨-, rfl⟩ | ⟨-, hj⟩
          · cases hn
          · exact h.bare j e hj hn
        · intro j e m y hj hm hy hmask
          rcases update_some hj with ⟨-, rfl⟩ | ⟨-, hj'⟩
          · exact .inl (h.bare i b hb hbare).2.1
          · rcases update_some hy with ⟨rfl, rfl⟩ | ⟨-, hy'⟩
            · exact h.owed j e m x hj' hm hx hmask
            · exact h.owed j e m y hj' hm hy' hmask
        · intro m y hy
          rcases update_some hy with ⟨rfl, rfl⟩ | ⟨-, hy⟩
          · have hr := h.refs m x hx
            show x.refs + 1 = s.caps m + x.bound.isSome.toNat + (x.signallers.length + 1) + _
            rw [hr]
            simp
            omega
          · exact h.refs m y hy

theorem Served.recount {extra' : Option Nat} (h : Served extra s) {x x' : Notification} (hx : s.notifies n = some x)
    (hs : s'.notifies = update s.notifies n (some x')) (hg : x'.signallers = x.signallers)
    (hp : x'.pending = x.pending) (h1 : s'.masked = s.masked) (h2 : s'.table = s.table) (h3 : s'.bindings = s.bindings)
    (hrefs : ∀ m y, s'.notifies m = some y →
      y.refs = s'.caps m + y.bound.isSome.toNat + y.signallers.length + (if extra' = some m then 1 else 0))
    (hbound : ∀ c m, s'.notifyBound c = some m ↔ ∃ y, s'.notifies m = some y ∧ y.bound = some c) : Served extra' s' := by
  refine ⟨?_, ?_, ?_, ?_, ?_, ?_, ?_, hrefs, hbound⟩
  · intro m y hy
    rw [hs] at hy
    rw [h3]
    rcases update_some hy with ⟨rfl, rfl⟩ | ⟨-, hy⟩
    · rw [hg]
      exact h.chain m x hx
    · exact h.chain m y hy
  · intro i b m hb hm
    rw [h3] at hb
    rw [hs, update_apply]
    split_ifs
    · exact ⟨x', rfl⟩
    · exact h.noted i b m hb hm
  · rw [h3, h2]
    exact h.seated
  · rw [h2, h3]
    exact h.owner
  · rw [h3, h1]
    exact h.bare
  · intro i b m y hb hm hy hmask
    rw [h3] at hb
    rw [h1] at hmask
    rw [hs] at hy
    rcases update_some hy with ⟨rfl, rfl⟩ | ⟨-, hy⟩
    · rw [hp]
      exact h.owed i b m x hb hm hx hmask
    · exact h.owed i b m y hb hm hy hmask
  · rw [h2, h1]
    exact h.default

/-- A drop of the reference that is one too many: the last one frees an object that nothing names. -/
theorem Served.notifyRefDrop (h : Served (some n) s) : Served none (s.notifyRefDrop n) := by
  unfold State.notifyRefDrop
  cases hx : s.notifies n with
  | none =>
    refine ⟨h.chain, h.noted, h.seated, h.owner, h.bare, h.owed, h.default, ?_, h.bound⟩
    intro m y hy
    have hr := h.refs m y hy
    have hmn : some n ≠ some m := by
      intro hk
      cases hk
      rw [hx] at hy
      cases hy
    rw [if_neg hmn] at hr
    simpa using hr
  | some x =>
    have hr := h.refs n x hx
    rw [if_pos rfl] at hr
    dsimp only
    split_ifs with hlast
    · have hlen : x.signallers.length = 0 := by omega
      have hempty : x.signallers = [] := List.length_eq_zero_iff.1 hlen
      have hnone : ∀ m y, update s.notifies n none m = some y → m ≠ n ∧ s.notifies m = some y := by
        intro m y hy
        rw [update_apply] at hy
        split_ifs at hy with hmn
        exact ⟨hmn, hy⟩
      have hunbound : x.bound = none := by
        cases hb : x.bound with
        | none => rfl
        | some c =>
          rw [hb, Option.isSome_some, Bool.toNat_true] at hr
          omega
      refine ⟨?_, ?_, h.seated, h.owner, h.bare, ?_, h.default, ?_, ?_⟩
      · intro m y hy
        exact h.chain m y (hnone m y hy).2
      · intro i b m hb hm
        obtain ⟨y, hy⟩ := h.noted i b m hb hm
        refine ⟨y, (update_of_ne ?_ _ _).trans hy⟩
        rintro rfl
        have hi := ((h.chain m x hx).2 i).2 ⟨b, hb, hm⟩
        rw [hempty] at hi
        cases hi
      · intro i b m y hb hm hy
        exact h.owed i b m y hb hm (hnone m y hy).2
      · intro m y hy
        obtain ⟨hmn, hy⟩ := hnone m y hy
        have hm := h.refs m y hy
        rw [if_neg (fun hk => hmn (Option.some.inj hk).symm)] at hm
        simpa using hm
      · intro c m
        refine (h.bound c m).trans ⟨?_, ?_⟩
        · rintro ⟨y, hy, hc⟩
          refine ⟨y, (update_of_ne ?_ _ _).trans hy, hc⟩
          rintro rfl
          rw [hx] at hy
          cases hy
          rw [hunbound] at hc
          cases hc
        · rintro ⟨y, hy, hc⟩
          exact ⟨y, (hnone m y hy).2, hc⟩
    · refine h.recount hx rfl rfl rfl rfl rfl rfl ?_ (h.bound_update hx rfl)
      intro m y hy
      rcases update_some hy with ⟨rfl, rfl⟩ | ⟨hmn, hy⟩
      · show x.refs - 1 = s.caps m + x.bound.isSome.toNat + x.signallers.length + _
        rw [if_neg (by simp)]
        omega
      · rw [h.refs m y hy, if_neg (fun hk => hmn (Option.some.inj hk).symm), if_neg (by simp)]
        rfl

theorem Served.notifyCopy (h : Served none s) (n : Nat) : Served none (s.notifyCopy n) := by
  unfold State.notifyCopy
  cases hx : s.notifies n with
  | none => exact h
  | some x =>
    dsimp only
    split_ifs
    · exact h
    · refine h.recount hx rfl rfl rfl rfl rfl rfl ?_ (h.bound_update hx rfl)
      intro m y hy
      rcases update_some hy with ⟨rfl, rfl⟩ | ⟨hmn, hy⟩
      · have hr := h.refs m x hx
        show x.refs + 1 = update s.caps m (s.caps m + 1) m + x.bound.isSome.toNat + x.signallers.length + _
        rw [update_self, hr]
        simp
        omega
      · have hr := h.refs m y hy
        rw [hr]
        show _ = update s.caps n (s.caps n + 1) m + _ + _ + _
        rw [update_of_ne hmn]

theorem Served.notifyClose (h : Served none s) (hc : 0 < s.caps n) : Served none (s.notifyClose n) := by
  apply Served.notifyRefDrop
  refine ⟨h.chain, h.noted, h.seated, h.owner, h.bare, h.owed, h.default, ?_, h.bound⟩
  intro m y hy
  have hr := h.refs m y hy
  show y.refs = update s.caps n (s.caps n - 1) m + _ + _ + _
  rw [hr, update_apply]
  by_cases hmn : m = n
  · subst hmn
    simp
    omega
  · rw [if_neg hmn, if_neg (by simp), if_neg (fun hk => hmn (Option.some.inj hk).symm)]

theorem Served.notifyBind (h : Served none s) (c n : Nat) : Served none (s.notifyBind c n) := by
  unfold State.notifyBind
  cases hx : s.notifies n with
  | none => exact h
  | some x =>
    dsimp only
    split_ifs with hno
    · exact h
    · rw [not_or, not_or, not_not, not_not] at hno
      obtain ⟨hfree, hself, -⟩ := hno
      refine h.recount hx rfl rfl rfl rfl rfl rfl ?_ ?_
      · intro m y hy
        rcases update_some hy with ⟨rfl, rfl⟩ | ⟨hmn, hy⟩
        · have hr := h.refs m x hx
          show x.refs + 1 = s.caps m + 1 + x.signallers.length + _
          rw [hr, hfree]
          simp
          omega
        · exact h.refs m y hy
      · intro e m
        show update s.notifyBound c (some n) e = some m ↔
          ∃ y, update s.notifies n (some { x with bound := some c, accept := 0, refs := x.refs + 1 }) m = some y ∧ _
        by_cases hec : e = c
        · subst hec
          rw [update_self]
          constructor
          · intro hm
            cases hm
            exact ⟨_, update_self _ _ _, rfl⟩
          · rintro ⟨y, hy, hc⟩
            rcases update_some hy with ⟨rfl, -⟩ | ⟨-, hy⟩
            · rfl
            · have hk := (h.bound e m).2 ⟨y, hy, hc⟩
              rw [hself] at hk
              cases hk
        · rw [update_of_ne hec, h.bound e m]
          constructor
          · rintro ⟨y, hy, hc⟩
            refine ⟨y, (update_of_ne ?_ _ _).trans hy, hc⟩
            rintro rfl
            rw [hx] at hy
            cases hy
            rw [hfree] at hc
            cases hc
          · rintro ⟨y, hy, hc⟩
            rcases update_some hy with ⟨-, rfl⟩ | ⟨-, hy⟩
            · exact absurd (Option.some.inj hc).symm hec
            · exact ⟨y, hy, hc⟩

theorem Served.notifyUnbind (h : Served none s) (c : Nat) : Served none (s.notifyUnbind c) := by
  unfold State.notifyUnbind
  cases hc : s.notifyBound c with
  | none => exact h
  | some n =>
    obtain ⟨x, hx, hbd⟩ := (h.bound c n).1 hc
    dsimp only
    rw [hx]
    dsimp only
    apply Served.notifyRefDrop
    refine h.recount hx rfl rfl rfl rfl rfl rfl ?_ ?_
    · intro m y hy
      rcases update_some hy with ⟨rfl, rfl⟩ | ⟨hmn, hy⟩
      · have hr := h.refs m x hx
        show x.refs = s.caps m + 0 + x.signallers.length + _
        rw [hr, hbd]
        simp
        omega
      · rw [h.refs m y hy, if_neg (fun hk => hmn (Option.some.inj hk).symm), if_neg (by simp)]
        rfl
    · intro e m
      show update s.notifyBound c none e = some m ↔
        ∃ y, update s.notifies n (some { x with bound := none, accept := 0 }) m = some y ∧ _
      by_cases hec : e = c
      · subst hec
        rw [update_self]
        constructor
        · intro hk
          cases hk
        · rintro ⟨y, hy, hce⟩
          rcases update_some hy with ⟨-, rfl⟩ | ⟨hmn, hy⟩
          · cases hce
          · have hk := (h.bound e m).2 ⟨y, hy, hce⟩
            rw [hc] at hk
            exact absurd (Option.some.inj hk).symm hmn
      · rw [update_of_ne hec, h.bound e m]
        constructor
        · rintro ⟨y, hy, hce⟩
          refine ⟨y, (update_of_ne ?_ _ _).trans hy, hce⟩
          rintro rfl
          rw [hx] at hy
          cases hy
          rw [hbd] at hce
          exact hec (Option.some.inj hce).symm
        · rintro ⟨y, hy, hce⟩
          rcases update_some hy with ⟨-, rfl⟩ | ⟨-, hy⟩
          · cases hce
          · exact ⟨y, hy, hce⟩

theorem Served.notifyCreate (h : Served none s) (n : Nat) : Served none (s.notifyCreate n) := by
  unfold State.notifyCreate
  split_ifs with hno
  · exact h
  · rw [not_not] at hno
    dsimp only
    have hold : ∀ m y, s.notifies m = some y → m ≠ n := by
      rintro m y hy rfl
      rw [hno] at hy
      cases hy
    refine ⟨?_, ?_, h.seated, h.owner, h.bare, ?_, h.default, ?_, ?_⟩
    · intro m y hy
      rcases update_some hy with ⟨rfl, rfl⟩ | ⟨-, hy⟩
      · refine ⟨List.nodup_nil, fun i => ⟨(fun hi => by cases hi), ?_⟩⟩
        rintro ⟨b, hb, hn⟩
        obtain ⟨y, hy⟩ := h.noted i b m hb hn
        exact absurd rfl (hold m y hy)
      · exact h.chain m y hy
    · intro i b m hb hm
      obtain ⟨y, hy⟩ := h.noted i b m hb hm
      exact ⟨y, (update_of_ne (hold m y hy) _ _).trans hy⟩
    · intro i b m y hb hm hy hmask
      rcases update_some hy with ⟨rfl, -⟩ | ⟨-, hy⟩
      · obtain ⟨z, hz⟩ := h.noted i b m hb hm
        exact absurd rfl (hold m z hz)
      · exact h.owed i b m y hb hm hy hmask
    · intro m y hy
      rcases update_some hy with ⟨rfl, rfl⟩ | ⟨hmn, hy⟩
      · show 1 = update s.caps m 1 m + 0 + 0 + _
        rw [update_self, if_neg (by simp)]
      · rw [h.refs m y hy]
        show _ = update s.caps n 1 m + _ + _ + _
        rw [update_of_ne hmn]
    · intro c m
      refine (h.bound c m).trans ⟨?_, ?_⟩
      · rintro ⟨y, hy, hc⟩
        exact ⟨y, (update_of_ne (hold m y hy) _ _).trans hy, hc⟩
      · rintro ⟨y, hy, hc⟩
        rcases update_some hy with ⟨-, rfl⟩ | ⟨-, hy⟩
        · cases hc
        · exact ⟨y, hy, hc⟩

theorem Served.unseat (h : Served extra s) (s' : State) {b : Binding} (hb : s.bindings i = some b)
    (hs : s'.bindings = update s.bindings i none) (ht : s'.table = update s.table b.line .default)
    (hm : s'.masked = update s.masked b.line true) :
    (∀ j e, s'.bindings j = some e → j ≠ i ∧ s.bindings j = some e ∧ e.line ≠ b.line) ∧
      (∀ j e, s'.bindings j = some e → s'.table e.line = .event j) ∧
      (∀ line j, s'.table line = .event j → ∃ e, s'.bindings j = some e ∧ e.line = line) ∧
      (∀ j e, s'.bindings j = some e → e.notify = none →
        s'.masked e.line = true ∧ e.needsRearm = true ∧ e.armedOnce = false) ∧
      ∀ line, s'.table line = .default → s'.masked line = true := by
  have hat : ∀ j e, s'.bindings j = some e → j ≠ i ∧ s.bindings j = some e ∧ e.line ≠ b.line := by
    intro j e hj
    rw [hs, update_apply] at hj
    split_ifs at hj with hji
    exact ⟨hji, hj, h.line_ne hb hj hji⟩
  refine ⟨hat, ?_, ?_, ?_, ?_⟩
  · intro j e hj
    obtain ⟨-, hj, hl⟩ := hat j e hj
    rw [ht, update_of_ne hl]
    exact h.seated j e hj
  · intro line j hj
    rw [ht, update_apply] at hj
    split_ifs at hj with hll
    obtain ⟨e, he, hle⟩ := h.owner line j hj
    refine ⟨e, ?_, hle⟩
    rw [hs, update_of_ne]
    · exact he
    · rintro rfl
      rw [hb] at he
      cases he
      exact hll hle.symm
  · intro j e hj hn
    obtain ⟨-, hj, hl⟩ := hat j e hj
    rw [hm, update_of_ne hl]
    exact h.bare j e hj hn
  · intro line hline
    rw [hm, update_apply]
    split_ifs with hl
    · rfl
    · rw [ht, update_of_ne hl] at hline
      exact h.default line hline

theorem notifyRefDrop_bindings (s : State) (n : Nat) (f : Nat → Option Binding) :
    ({ s with bindings := f } : State).notifyRefDrop n = { s.notifyRefDrop n with bindings := f } := by
  unfold notifyRefDrop
  dsimp only
  cases s.notifies n with
  | none => rfl
  | some x =>
    dsimp only
    split_ifs <;> rfl

theorem irqRefDrop_bare {b : Binding} (hb : s.bindings i = some b) (hl : ¬1 < b.refs) (hn : b.notify = none) :
    s.irqRefDrop i = { s.irqDetach b.line with bindings := update s.bindings i none } := by
  have hun : s.unchainSignaller i = s := by
    unfold unchainSignaller
    rw [hb]
    dsimp only
    rw [hn]
  have hdet : (s.irqDetach b.line).detachNotify i = s.irqDetach b.line := by
    unfold detachNotify
    rw [show (s.irqDetach b.line).bindings i = some b from hb]
    dsimp only
    rw [hn]
  unfold irqRefDrop
  rw [hb]
  dsimp only
  rw [if_neg hl, hun, hdet]
  rfl

/-- The free of a binding on a chain: it leaves the chain and its slot, and its reference on the object goes last. -/
theorem irqRefDrop_chained {b : Binding} {x : Notification} (hb : s.bindings i = some b) (hl : ¬1 < b.refs)
    (hn : b.notify = some n) (hx : s.notifies n = some x) : s.irqRefDrop i =
      ({ (s.setNote n { x with signallers := x.signallers.erase i }).irqDetach b.line with
        bindings := update s.bindings i none } : State).notifyRefDrop n := by
  have hun : s.unchainSignaller i = s.setNote n { x with signallers := x.signallers.erase i } := by
    unfold unchainSignaller
    rw [hb]
    dsimp only
    rw [hn]
    dsimp only
    rw [hx]
  have hdet : ((s.setNote n { x with signallers := x.signallers.erase i }).irqDetach b.line).detachNotify i =
      ({ (s.setNote n { x with signallers := x.signallers.erase i }).irqDetach b.line with
        bindings := update s.bindings i (some { b with notify := none }) } : State).notifyRefDrop n := by
    unfold detachNotify
    rw [show ((s.setNote n _).irqDetach b.line).bindings i = some b from hb]
    dsimp only
    rw [hn]
    rfl
  unfold irqRefDrop
  rw [hb]
  dsimp only
  rw [if_neg hl, hun, hdet, notifyRefDrop_bindings]
  dsimp only
  rw [update_idem]
  exact (notifyRefDrop_bindings _ n _).symm

theorem Served.irqRefDrop_bare (h : Served none s) {b : Binding} (hb : s.bindings i = some b) (hn : b.notify = none) :
    Served none { s.irqDetach b.line with bindings := update s.bindings i none } := by
  obtain ⟨k1, k2, k3, k4, k5⟩ :=
    h.unseat { s.irqDetach b.line with bindings := update s.bindings i none } hb rfl rfl rfl
  refine ⟨?_, ?_, k2, k3, k4, ?_, k5, h.refs, h.bound⟩
  · intro m y hy
    obtain ⟨c1, c2⟩ := h.chain m y hy
    refine ⟨c1, fun j => (c2 j).trans ⟨?_, ?_⟩⟩
    · rintro ⟨e, he, hne⟩
      refine ⟨e, (update_of_ne ?_ _ _).trans he, hne⟩
      rintro rfl
      rw [hb] at he
      cases he
      rw [hn] at hne
      cases hne
    · rintro ⟨e, he, hne⟩
      exact ⟨e, (k1 j e he).2.1, hne⟩
  · intro j e m hj hm
    exact h.noted j e m (k1 j e hj).2.1 hm
  · intro j e m y hj hm hy hmask
    obtain ⟨-, hj', hl⟩ := k1 j e hj
    exact h.owed j e m y hj' hm hy ((update_of_ne hl _ _).symm.trans hmask)

theorem Served.irqRefDrop_chained (h : Served none s) {b : Binding} {x : Notification} (hb : s.bindings i = some b)
    (hn : b.notify = some n) (hx : s.notifies n = some x) :
    Served (some n) { (s.setNote n { x with signallers := x.signallers.erase i }).irqDetach b.line with
      bindings := update s.bindings i none } := by
  obtain ⟨c1, c2⟩ := h.chain n x hx
  have hmem : i ∈ x.signallers := (c2 i).2 ⟨b, hb, hn⟩
  obtain ⟨k1, k2, k3, k4, k5⟩ := h.unseat { (s.setNote n { x with signallers := x.signallers.erase i }).irqDetach b.line with
    bindings := update s.bindings i none } hb rfl rfl rfl
  refine ⟨?_, ?_, k2, k3, k4, ?_, k5, ?_, h.bound_update hx rfl⟩
  · intro m y hy
    rcases update_some hy with ⟨rfl, rfl⟩ | ⟨hmn, hy⟩
    · refine ⟨c1.erase i, fun j => ?_⟩
      show j ∈ x.signallers.erase i ↔ _
      rw [c1.mem_erase_iff, c2 j]
      constructor
      · rintro ⟨hji, e, he, hne⟩
        exact ⟨e, (update_of_ne hji _ _).trans he, hne⟩
      · rintro ⟨e, he, hne⟩
        obtain ⟨hji, he', -⟩ := k1 j e he
        exact ⟨hji, e, he', hne⟩
    · obtain ⟨d1, d2⟩ := h.chain m y hy
      refine ⟨d1, fun j => (d2 j).trans ⟨?_, ?_⟩⟩
      · rintro ⟨e, he, hne⟩
        refine ⟨e, (update_of_ne ?_ _ _).trans he, hne⟩
        rintro rfl
        rw [hb] at he
        cases he
        rw [hn] at hne
        exact hmn (Option.some.inj hne).symm
      · rintro ⟨e, he, hne⟩
        exact ⟨e, (k1 j e he).2.1, hne⟩
  · intro j e m hj hm
    obtain ⟨y, hy⟩ := h.noted j e m (k1 j e hj).2.1 hm
    show ∃ z, update s.notifies n (some { x with signallers := x.signallers.erase i }) m = some z
    rw [update_apply]
    split_ifs
    · exact ⟨_, rfl⟩
    · exact ⟨y, hy⟩
  · intro j e m y hj hm hy hmask
    obtain ⟨-, hj', hl⟩ := k1 j e hj
    have hmask' : s.masked e.line = true := (update_of_ne hl _ _).symm.trans hmask
    rcases update_some hy with ⟨rfl, rfl⟩ | ⟨-, hy'⟩
    · exact h.owed j e m x hj' hm hx hmask'
    · exact h.owed j e m y hj' hm hy' hmask'
  · intro m y hy
    rcases update_some hy with ⟨rfl, rfl⟩ | ⟨hmn, hy⟩
    · have hr := h.refs m x hx
      have hlen := List.length_erase_of_mem hmem
      have hpos := List.length_pos_of_mem hmem
      show x.refs = s.caps m + x.bound.isSome.toNat + (x.signallers.erase i).length + _
      rw [hr, hlen]
      simp
      omega
    · rw [h.refs m y hy, if_neg (fun hk => hmn (Option.some.inj hk).symm), if_neg (by simp)]
      rfl

/-- The last capability of a line closes: the line is masked and free before the notification loses its reference. -/
theorem Served.irqRefDrop (h : Served none s) (i : Nat) : Served none (s.irqRefDrop i) := by
  cases hb : s.bindings i with
  | none =>
    unfold State.irqRefDrop
    rw [hb]
    exact h
  | some b =>
    by_cases hl : 1 < b.refs
    · unfold State.irqRefDrop
      rw [hb]
      dsimp only
      rw [if_pos hl]
      exact h.rebind hb rfl rfl rfl rfl (fun _ _ => rfl) rfl rfl rfl rfl (fun hn => h.bare i b hb hn)
        fun n x hn hx hm => h.owed i b n x hb hn hx hm
    · cases hn : b.notify with
      | none =>
        rw [State.irqRefDrop_bare hb hl hn]
        exact h.irqRefDrop_bare hb hn
      | some n =>
        obtain ⟨x, hx⟩ := h.noted i b n hb hn
        rw [State.irqRefDrop_chained hb hl hn hx]
        exact (h.irqRefDrop_chained hb hn hx).notifyRefDrop

end State
end Irq
end KickOS
