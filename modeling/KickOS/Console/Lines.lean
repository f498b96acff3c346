import KickOS.Console.Threads

/-! Who the line's owners are. Over the runs in which no thread goes while its record's line is on the wire, and none ends by
itself while its line is open, every owner in `LineState` is there and still speaks. -/

namespace KickOS
namespace Console
open Function (update update_apply update_eq_self update_of_ne update_self)
namespace State

variable {b : Build} {s s' : State} {c : Ctx} {i : Nat}

/-- How the context at a place took the line, if it has it. -/
def speaks : Place → Option Turn
  | .opening _ t => some t
  | .between _ t _ => some t
  | .putting _ t _ => some t
  | .stalled _ t _ => some t
  | _ => none

/-- An interrupt inside its write is there. -/
def alive (s : State) : Ctx → Bool
  | .thread i => s.live i
  | .isr _ => true

/-- A context of this key is inside a line of its own. -/
def Writes (s : State) (k : Key) : Prop :=
  ∃ c t, c.key = k ∧ s.alive c = true ∧ speaks (s.place c) = some t ∧ t.record = false

/-- The thread is inside a line of its fault record. -/
def Records (s : State) (i : Nat) : Prop := s.live i = true ∧ ∃ t, speaks (s.place (.thread i)) = some t ∧ t.record = true

/-- The live threads with an open fault record. -/
def openRecords (b : Build) (s : State) : Nat := Lib.count b.threads fun i => s.live i && s.inRecord i

structure Spoken (b : Build) (s : State) : Prop where
  writer : ∀ k, s.line.writer = some k → s.Writes k
  record : ∀ i, s.line.record = some i → s.Records i
  openBy : ∀ i, s.line.openBy = some i → s.live i = true ∧ s.exiting i = false ∧ b.claim = true
  records : s.line.records = openRecords b s
  claimed : ∀ c t, speaks (s.place c) = some t → t.claimed = true → b.claim = true

theorem canRun_alive (h : s.canRun b c = true) : s.alive c = true := by
  cases c with
  | thread i => exact (canRun_thread h).2.1
  | isr j => rfl

theorem Spoken.keep (h : Spoken b s) (hp : ∀ c, speaks (s'.place c) = speaks (s.place c)) (hl : s'.live = s.live)
    (hx : s'.exiting = s.exiting) (hw : s'.line.writer = s.line.writer) (hr : s'.line.record = s.line.record)
    (ho : s'.line.openBy = s.line.openBy ∨ s'.line.openBy = none) (hn : s'.line.records = openRecords b s') :
    Spoken b s' := by
  refine ⟨?_, ?_, ?_, hn, ?_⟩
  · intro k hk
    rw [hw] at hk
    obtain ⟨c, t, h1, h2, h3, h4⟩ := h.writer k hk
    refine ⟨c, t, h1, ?_, (hp c).trans h3, h4⟩
    cases c with
    | thread i =>
      rw [alive, hl]
      exact h2
    | isr j => rfl
  · intro i hi
    rw [hr] at hi
    obtain ⟨h1, t, h2, h3⟩ := h.record i hi
    exact ⟨by rw [hl]; exact h1, t, (hp _).trans h2, h3⟩
  · intro i hi
    rw [hl, hx]
    rcases ho with ho | ho
    · rw [ho] at hi
      exact h.openBy i hi
    · rw [ho] at hi
      cases hi
  · intro c t hc
    rw [hp] at hc
    exact h.claimed c t hc

theorem speaks_set {p : Place} (hs : s'.place = update s.place c p) (hp : speaks p = speaks (s.place c)) (e : Ctx) :
    speaks (s'.place e) = speaks (s.place e) := by
  rw [hs, update_apply]
  split_ifs with he
  · rw [he, hp]
  · rfl

theorem speaks_at {p : Place} {t : Turn} (hs : s'.place = update s.place c p) (hp : speaks p = some t) :
    speaks (s'.place c) = some t := by
  rw [hs, update_self, hp]

theorem speaks_other {p : Place} {e : Ctx} (hs : s'.place = update s.place c p) (he : e ≠ c) :
    speaks (s'.place e) = speaks (s.place e) := by
  rw [hs, update_of_ne he]

theorem openRecords_congr (hl : s'.live = s.live) (hr : s'.inRecord = s.inRecord) : openRecords b s' = openRecords b s := by
  rw [openRecords, openRecords, hl, hr]

theorem Spoken.still (h : Spoken b s) (hp : ∀ c, speaks (s'.place c) = speaks (s.place c)) (hl : s'.live = s.live)
    (hx : s'.exiting = s.exiting) (hr : s'.inRecord = s.inRecord) (hw : s'.line.writer = s.line.writer)
    (hc : s'.line.record = s.line.record) (ho : s'.line.openBy = s.line.openBy ∨ s'.line.openBy = none)
    (hn : s'.line.records = s.line.records) : Spoken b s' :=
  h.keep hp hl hx hw hc ho (by rw [hn, h.records, openRecords_congr hl hr])

theorem openRecords_set (hl : s'.live = s.live) {v : Bool} (hr : s'.inRecord = update s.inRecord i v)
    (hi : i < b.threads) (hlive : s.live i = true) :
    openRecords b s' + (s.inRecord i).toNat = openRecords b s + v.toNat := by
  have hset : (fun k => s'.live k && s'.inRecord k) = update (fun k => s.live k && s.inRecord k) i v := by
    funext k
    rw [hl, hr]
    by_cases hk : k = i
    · rw [hk, update_self, update_self, hlive, Bool.true_and]
    · rw [update_of_ne hk, update_of_ne hk]
  have hcount := Lib.count_update (fun k => s.live k && s.inRecord k) v id hi
  rw [← hset] at hcount
  have hat : (s.live i && s.inRecord i) = s.inRecord i := by rw [hlive, Bool.true_and]
  simp only [id, hat] at hcount
  exact hcount

theorem openRecords_lt (b : Build) (s : State) : openRecords b s < 65535 :=
  lt_of_le_of_lt (Lib.count_le.trans b.threads_le) (by norm_num)

theorem Spoken.records_begin (h : Spoken b s) (hi : i < b.threads) (hlive : s.live i = true) (hin : s.inRecord i = false)
    (hl : s'.live = s.live) (hr : s'.inRecord = update s.inRecord i true) :
    (s.line.records + 1) % 65536 = openRecords b s' := by
  have hset := openRecords_set hl hr hi hlive
  have hlt := openRecords_lt b s
  rw [hin, Bool.toNat_false, Bool.toNat_true] at hset
  rw [h.records]
  omega

theorem Spoken.recordBegin (h : Spoken b s) (hc : s.canRun b (.thread i) = true) : Spoken b (s.recordBegin i) := by
  rw [State.recordBegin]
  split_ifs with hr
  · exact h
  · obtain ⟨hi, hl, -⟩ := canRun_thread hc
    refine h.keep (fun _ => rfl) rfl rfl rfl rfl (.inl rfl) ?_
    exact h.records_begin hi hl (Bool.eq_false_of_not_eq_true hr) rfl rfl

theorem Spoken.records_end (h : Spoken b s) (hh : Housed b s) (hl : s'.live = s.live)
    (hr : s'.inRecord = update s.inRecord i false) :
    (if s.inRecord i then (s.line.records + 65535) % 65536 else s.line.records) = openRecords b s' := by
  cases hin : s.inRecord i with
  | false =>
    rw [if_neg (by decide), h.records]
    refine (openRecords_congr hl (hr.trans ?_)).symm
    rw [← hin, update_eq_self]
  | true =>
    have hlive : s.live i = true := by
      cases hv : s.live i with
      | true => rfl
      | false =>
        rw [(hh.gone i hv).2] at hin
        cases hin
    have hset := openRecords_set hl hr (hh.live i hlive) hlive
    have hlt := openRecords_lt b s
    rw [hin, Bool.toNat_false, Bool.toNat_true] at hset
    rw [if_pos rfl, h.records]
    omega

theorem Spoken.krecordEnd (h : Spoken b s) (hh : Housed b s) (i : Nat) (deliver : Bool) : Spoken b (s.krecordEnd i deliver) := by
  obtain ⟨l, w, p, heq⟩ := krecordEnd_eq s i deliver
  rw [heq]
  refine h.keep (fun _ => rfl) rfl rfl rfl rfl (.inl rfl) ?_
  exact h.records_end hh rfl rfl

theorem Spoken.lineTake (h : Spoken b s) {l : Line} {claimed : Bool} (hc : s.canRun b c = true)
    (hp : speaks (s.place c) = none) (hcl : claimed = true → b.claim = true) (claimLeft : Bool) :
    Spoken b (s.lineTake b c l claimed claimLeft) := by
  have hother : ∀ {e t}, speaks (s.place e) = some t → e ≠ c := by
    rintro e t he rfl
    rw [hp] at he
    cases he
  have hopen : ∀ {o : Option Nat}, o = s.line.openBy ∨ o = none → ∀ i, o = some i →
      s.live i = true ∧ s.exiting i = false ∧ b.claim = true := by
    rintro o (ho | ho) i hi
    · exact h.openBy i (ho.symm.trans hi)
    · rw [ho] at hi
      cases hi
  have hclaimed : ∀ {p : Place} {t : Turn}, (speaks p = some t → t.claimed = true → b.claim = true) → ∀ e,
      speaks (update s.place c p e) = some t → t.claimed = true → b.claim = true := by
    intro p t hpt e he
    rw [update_apply] at he
    split_ifs at he
    · exact hpt he
    · exact h.claimed e t he
  obtain ⟨o, w, p, ho, heq | ⟨i, rfl, hin, heq⟩ | ⟨hin, u, heq⟩⟩ := lineTake_cases b s c l claimed claimLeft
  · rw [heq]
    exact h.still (speaks_set rfl hp.symm) rfl rfl rfl rfl rfl ho rfl
  · rw [heq]
    refine ⟨?_, ?_, hopen ho, h.records, ?_⟩
    · intro k hk
      obtain ⟨e, t, h1, h2, h3, h4⟩ := h.writer k hk
      refine ⟨e, t, h1, ?_, ?_, h4⟩
      · cases e <;> exact h2
      · exact (speaks_other rfl (hother h3)).trans h3
    · intro k hk
      cases hk
      exact ⟨(canRun_thread hc).2.1, s.turnOf (.thread i) l claimed, speaks_at rfl rfl, hin⟩
    · intro e t
      exact hclaimed (fun ht => by cases ht; exact hcl) e
  · rw [heq]
    refine ⟨?_, ?_, hopen ho, h.records, ?_⟩
    · intro k hk
      cases hk
      refine ⟨c, s.turnOf c l claimed, rfl, ?_, speaks_at rfl rfl, hin⟩
      have ha := canRun_alive hc
      cases c <;> exact ha
    · intro k hk
      obtain ⟨h1, t, h2, h3⟩ := h.record k hk
      exact ⟨h1, t, (speaks_other rfl (hother h2)).trans h2, h3⟩
    · intro e t
      exact hclaimed (fun ht => by cases ht; exact hcl) e

theorem Spoken.lineEnd (h : Spoken b s) {l : Line} {t : Turn} {n : Nat} (hc : s.canRun b c = true)
    (hsp : speaks (s.place c) = some t) (stalled claimLeft : Bool) : Spoken b (s.lineEnd c l t n stalled claimLeft) := by
  have hother : ∀ {e u}, speaks (s.place e) = some u → u.record ≠ t.record → e ≠ c := by
    rintro e u he hu rfl
    rw [hsp] at he
    cases he
    exact hu rfl
  -- either field that is kept names a context whose turn was of the other sort
  have hend : ∀ {s' : State} {p : Place}, speaks p = none → s'.place = update s.place c p → s'.live = s.live →
      s'.exiting = s.exiting → s'.inRecord = s.inRecord → s'.line.records = s.line.records →
      (t.record = true ∧ s'.line.writer = s.line.writer ∧ s'.line.record = none ∨
        t.record = false ∧ s'.line.writer = none ∧ s'.line.record = s.line.record) →
      (∀ i, s'.line.openBy = some i → s.live i = true ∧ s.exiting i = false ∧ b.claim = true) → Spoken b s' := by
    intro s' p hnone hplace hl hx hr hn hline hopen
    refine ⟨?_, ?_, ?_, ?_, ?_⟩
    · intro k hk
      rcases hline with ⟨ht, hw, -⟩ | ⟨-, hw, -⟩
      · rw [hw] at hk
        obtain ⟨e, u, h1, h2, h3, h4⟩ := h.writer k hk
        refine ⟨e, u, h1, ?_, (speaks_other hplace (hother h3 (by rw [ht, h4]; decide))).trans h3, h4⟩
        cases e with
        | thread i =>
          rw [alive, hl]
          exact h2
        | isr j => rfl
      · rw [hw] at hk
        cases hk
    · intro i hi
      rcases hline with ⟨-, -, hrec⟩ | ⟨ht, -, hrec⟩
      · rw [hrec] at hi
        cases hi
      · rw [hrec] at hi
        obtain ⟨h1, u, h2, h3⟩ := h.record i hi
        exact ⟨by rw [hl]; exact h1, u, (speaks_other hplace (hother h2 (by rw [ht, h3]; decide))).trans h2, h3⟩
    · rw [hl, hx]
      exact hopen
    · rw [hn, h.records, openRecords_congr hl hr]
    · intro e u he
      rw [hplace, update_apply] at he
      split_ifs at he
      · rw [hnone] at he
        cases he
      · exact h.claimed e u he
  rw [State.lineEnd]
  split_ifs with hcl
  · obtain ⟨x, w, p, heq, hx⟩ := claimedEnd_eq s c t claimLeft
    rw [heq]
    refine hend (p := .closing l n n stalled) rfl rfl rfl rfl rfl ?_ ?_ ?_
    · rcases hx with ⟨-, hx⟩ | ⟨-, o, hx, -⟩ <;> rw [hx] <;> rfl
    · rcases hx with ⟨ht, hx⟩ | ⟨ht, o, hx, -⟩
      · exact .inl ⟨ht, by rw [hx]; rfl, by rw [hx]; rfl⟩
      · exact .inr ⟨ht, by rw [hx]; rfl, by rw [hx]; rfl⟩
    · intro i hi
      have hxi : x.openBy = some i := hi
      rcases hx with ⟨-, hx⟩ | ⟨-, o, hx, ho | ho | ⟨k, hk, ho⟩⟩
      · rw [hx] at hxi
        exact h.openBy i hxi
      · rw [hx] at hxi
        exact h.openBy i (ho.symm.trans hxi)
      · rw [hx] at hxi
        cases ho.symm.trans hxi
      · rw [hx] at hxi
        cases ho.symm.trans hxi
        rw [hk] at hc
        obtain ⟨-, h1, -, h2, -⟩ := canRun_thread hc
        exact ⟨h1, h2, h.claimed c t hsp hcl⟩
  · refine hend (p := .closing l l.n n stalled) rfl rfl rfl rfl rfl ?_ ?_ ?_
    · show (if t.record then ({ s.line with record := none } : LineState) else { s.line with writer := none }).records = _
      split_ifs <;> rfl
    · cases ht : t.record with
      | true => exact .inl ⟨rfl, by rw [ownedEnd, ht]; rfl, by rw [ownedEnd, ht]; rfl⟩
      | false => exact .inr ⟨rfl, by rw [ownedEnd, ht]; rfl, by rw [ownedEnd, ht]; rfl⟩
    · intro i hi
      refine h.openBy i (Eq.trans ?_ hi)
      show _ = (if t.record then ({ s.line with record := none } : LineState) else { s.line with writer := none }).openBy
      split_ifs <;> rfl

theorem Spoken.other (h : Spoken b s) (hp : ∀ e, e ≠ .thread i → s'.place e = s.place e)
    (hout : speaks (s'.place (.thread i)) = none) (hl : ∀ k, k ≠ i → s'.live k = s.live k)
    (hx : ∀ k, k ≠ i → s'.exiting k = s.exiting k)
    (hw : ∀ k, s'.line.writer = some k → s.line.writer = some k ∧ k ≠ .thread i)
    (hr : ∀ k, s'.line.record = some k → s.line.record = some k ∧ k ≠ i)
    (ho : ∀ k, s'.line.openBy = some k → s.line.openBy = some k ∧ k ≠ i)
    (hn : s'.line.records = openRecords b s') : Spoken b s' := by
  refine ⟨?_, ?_, ?_, hn, ?_⟩
  · intro k hk
    obtain ⟨hk, hki⟩ := hw k hk
    obtain ⟨e, t, h1, h2, h3, h4⟩ := h.writer k hk
    have he : e ≠ .thread i := by
      rintro rfl
      exact hki h1.symm
    refine ⟨e, t, h1, ?_, by rw [hp e he]; exact h3, h4⟩
    cases e with
    | thread j =>
      rw [alive, hl j fun hj => he (by rw [hj])]
      exact h2
    | isr j => rfl
  · intro k hk
    obtain ⟨hk, hki⟩ := hr k hk
    obtain ⟨h1, t, h2, h3⟩ := h.record k hk
    refine ⟨by rw [hl k hki]; exact h1, t, ?_, h3⟩
    rw [hp _ fun he => hki (Ctx.thread.inj he)]
    exact h2
  · intro k hk
    obtain ⟨hk, hki⟩ := ho k hk
    rw [hl k hki, hx k hki]
    exact h.openBy k hk
  · intro e t he
    by_cases hei : e = .thread i
    · rw [hei, hout] at he
      cases he
    · rw [hp e hei] at he
      exact h.claimed e t he

theorem Spoken.writer_ne (h : Spoken b s) (hout : speaks (s.place (.thread i)) = none) :
    s.line.writer ≠ some (.thread i) := by
  intro hw
  obtain ⟨e, t, h1, -, h3, -⟩ := h.writer _ hw
  cases e with
  | thread j =>
    cases h1
    rw [hout] at h3
    cases h3
  | isr j => cases h1

theorem Spoken.record_ne (h : Spoken b s) (hout : speaks (s.place (.thread i)) = none) : s.line.record ≠ some i := by
  intro hr
  obtain ⟨-, t, h2, -⟩ := h.record i hr
  rw [hout] at h2
  cases h2

theorem Spoken.slayExit (h : Spoken b s) (hh : Housed b s) (hrec : s.line.record ≠ some i) : Spoken b (s.slayExit b i) := by
  obtain ⟨w, l, p, q, o, t, heq⟩ := slayExit_eq b s i
  rw [heq]
  refine h.other (fun e he => update_of_ne he _ _) ?_ (fun _ _ => rfl) (fun k hk => update_of_ne hk _ _)
    ?_ ?_ ?_ ?_
  · exact congrArg speaks (update_self (f := s.place) (.thread i) .out)
  · intro k hk
    have hk' : (if s.line.writer = some (.thread i) then none else s.line.writer) = some k := hk
    split_ifs at hk' with hw
    refine ⟨hk', ?_⟩
    rintro rfl
    exact hw hk'
  · intro k hk
    refine ⟨hk, ?_⟩
    rintro rfl
    exact hrec hk
  · intro k hk
    have hk' : (if b.claim ∧ s.line.openBy = some i then none else s.line.openBy) = some k := hk
    split_ifs at hk' with ho
    refine ⟨hk', ?_⟩
    rintro rfl
    exact ho ⟨(h.openBy _ hk').2.2, hk'⟩
  · exact h.records_end hh rfl rfl

theorem Spoken.exit (h : Spoken b s) (hout : s.place (.thread i) = .out) (hin : s.inRecord i = false)
    (ho : s.line.openBy ≠ some i) :
    Spoken b { s with live := update s.live i false, exiting := update s.exiting i false } := by
  have hsp : speaks (s.place (.thread i)) = none := by
    rw [hout]
    rfl
  refine h.other (fun _ _ => rfl) hsp (fun k hk => update_of_ne hk _ _) (fun k hk => update_of_ne hk _ _)
    ?_ ?_ ?_ ?_
  · intro k hk
    refine ⟨hk, ?_⟩
    rintro rfl
    exact h.writer_ne hsp hk
  · intro k hk
    refine ⟨hk, ?_⟩
    rintro rfl
    exact h.record_ne hsp hk
  · intro k hk
    refine ⟨hk, ?_⟩
    rintro rfl
    exact ho hk
  · refine h.records.trans (Lib.count_congr fun k _ => ?_)
    show _ = (update s.live i false k && s.inRecord k)
    rw [update_apply]
    split_ifs with hk
    · rw [hk, hin, Bool.and_false, Bool.and_false]
    · rfl

theorem Spoken.spawn (h : Spoken b s) (hh : Housed b s) (hi : s.live i = false) : Spoken b (s.spawn i) := by
  obtain ⟨hout, hin⟩ := hh.gone i hi
  have hsp : speaks (s.place (.thread i)) = none := by
    rw [hout]
    rfl
  refine h.other (fun e he => update_of_ne he _ _) ?_ (fun k hk => update_of_ne hk _ _)
    (fun k hk => update_of_ne hk _ _) ?_ ?_ ?_ ?_
  · exact congrArg speaks (update_self (f := s.place) (.thread i) .out)
  · intro k hk
    refine ⟨hk, ?_⟩
    rintro rfl
    exact h.writer_ne hsp hk
  · intro k hk
    refine ⟨hk, ?_⟩
    rintro rfl
    exact h.record_ne hsp hk
  · intro k hk
    refine ⟨hk, ?_⟩
    rintro rfl
    have hlive := (h.openBy k hk).1
    rw [hi] at hlive
    cases hlive
  · refine h.records.trans (Lib.count_congr fun k _ => ?_)
    show _ = (update s.live i true k && update s.inRecord i false k)
    rw [update_apply, update_apply]
    split_ifs with hk
    · rw [hk, hi, Bool.false_and, Bool.and_false]
    · rfl

theorem Spoken.chipWriterEnter (h : Spoken b s) (hout : s.place c = .out) (l : Line) (serves fits : Bool)
    (current room : Nat) : Spoken b (s.chipWriterEnter c l serves fits current room) := by
  have hp : speaks (s.place c) = none := by
    rw [hout]
    rfl
  unfold State.chipWriterEnter
  split_ifs
  · exact h.still (fun _ => rfl) rfl rfl rfl rfl rfl (.inl rfl) rfl
  · exact h.still (fun _ => rfl) rfl rfl rfl rfl rfl (.inl rfl) rfl
  · exact h.still (fun _ => rfl) rfl rfl rfl rfl rfl (.inl rfl) rfl
  · exact h.still (fun _ => rfl) rfl rfl rfl rfl rfl (.inl rfl) rfl
  · cases c with
    | thread i => exact h.still (speaks_set rfl hp.symm) rfl rfl rfl rfl rfl (.inl rfl) rfl
    | isr j => exact h.still (speaks_set rfl hp.symm) rfl rfl rfl rfl rfl (.inl rfl) rfl

theorem Spoken.queueLine (h : Spoken b s) {l : Line} {r : Bool} (hp : s.place c = .entered l r) (room : Bool) :
    Spoken b (s.queueLine c l room) := by
  have hsp : none = speaks (s.place c) := by
    rw [hp]
    rfl
  unfold State.queueLine
  split_ifs <;> exact h.still (speaks_set rfl hsp) rfl rfl rfl rfl rfl (.inl rfl) rfl

theorem Spoken.putByte (h : Spoken b s) {l : Line} {t : Turn} {n : Nat} (hp : s.place c = .between l t n) :
    Spoken b (s.putByte c) := by
  have hsp : some t = speaks (s.place c) := by
    rw [hp]
    rfl
  unfold State.putByte
  rw [hp]
  dsimp only
  split_ifs <;> exact h.still (speaks_set rfl hsp) rfl rfl rfl rfl rfl (.inl rfl) rfl

theorem Spoken.storeByte (h : Spoken b s) {l : Line} {t : Turn} {n : Nat} (hp : s.place c = .putting l t n) (stored : Bool) :
    Spoken b (s.storeByte c stored) := by
  have hsp : some t = speaks (s.place c) := by
    rw [hp]
    rfl
  unfold State.storeByte
  rw [hp]
  dsimp only
  split_ifs <;> exact h.still (speaks_set rfl hsp) rfl rfl rfl rfl rfl (.inl rfl) rfl

theorem Spoken.leaveOffer (h : Spoken b s) {l : Line} {took sent : Nat} {stalled : Bool}
    (hp : s.place c = .closing l took sent stalled) : Spoken b (s.leaveOffer c) := by
  obtain ⟨p, heq⟩ := chipWriterLeave_eq s c
  unfold State.leaveOffer
  rw [hp, heq]
  exact h.still (speaks_set rfl (by rw [hp]; rfl)) rfl rfl rfl rfl rfl (.inl rfl) rfl

/-- Before its take a context has no line, and takes one as a claimed UART's only on a build with the claim. -/
theorem lineAhead_speaks {p : Place} {l : Line} {claimed : Bool} (h : lineAhead b p = some (l, claimed)) :
    speaks p = none ∧ (claimed = true → b.claim = true) := by
  cases p with
  | entered k r =>
    refine ⟨rfl, fun _ => ?_⟩
    cases r with
    | true => cases h
    | false =>
      rw [lineAhead] at h
      split_ifs at h with hc
      exact hc
  | unbuffered k =>
    cases h
    exact ⟨rfl, fun hk => by cases hk⟩
  | _ => cases h

theorem lineEnding_speaks {p : Place} {l : Line} {t : Turn} {n : Nat} {stalled : Bool}
    (h : lineEnding p = some (l, t, n, stalled)) : speaks p = some t := by
  cases p with
  | between k u m =>
    rw [lineEnding] at h
    split_ifs at h
    cases h
    rfl
  | stalled k u m =>
    cases h
    rfl
  | _ => cases h

/-- No thread goes while its record's line is on the wire, and none ends by itself while its line is open. -/
def Clears (s : State) : Act → Prop
  | .slayExit i => s.line.record ≠ some i
  | .exit i => s.line.openBy ≠ some i
  | _ => True

theorem Spoken.next (h : Spoken b s) (hh : Housed b s) {a : Act} (ha : s.enabled b a = true) (hok : Clears s a) :
    Spoken b (s.next b a) := by
  cases a with
  | enter c l serves fits current room =>
    simp only [enabled, mayOffer, Bool.and_eq_true, beq_iff_eq] at ha
    exact h.chipWriterEnter ha.2.1.1 l serves fits current room
  | queue c room =>
    obtain ⟨-, l, r, hp, heq⟩ := queue_cases ha
    rw [heq]
    exact h.queueLine hp room
  | take c claimLeft =>
    obtain ⟨hr, l, claimed, hp, heq⟩ := take_cases ha
    rw [heq]
    obtain ⟨hsp, hcl⟩ := lineAhead_speaks hp
    exact h.lineTake hr hsp hcl claimLeft
  | opened c =>
    obtain ⟨-, -, l, t, hp, heq⟩ := opened_cases ha
    rw [heq]
    exact h.still (speaks_set rfl (by rw [hp]; rfl)) rfl rfl rfl rfl rfl (.inl rfl) rfl
  | put c =>
    obtain ⟨-, l, t, n, hp, -⟩ := put_cases ha
    exact h.putByte hp
  | stored c stored =>
    obtain ⟨-, l, t, n, hp⟩ := stored_cases ha
    exact h.storeByte hp stored
  | finish c claimLeft =>
    obtain ⟨hr, l, t, n, stalled, hp, heq⟩ := finish_cases ha
    rw [heq]
    exact h.lineEnd hr (lineEnding_speaks hp) stalled claimLeft
  | drain c => exact h.still (fun _ => rfl) rfl rfl rfl rfl rfl (.inl rfl) rfl
  | drained c =>
    obtain ⟨-, l, hp, heq⟩ := drained_cases ha
    rw [heq]
    exact h.still (speaks_set rfl (by rw [hp]; rfl)) rfl rfl rfl rfl rfl (.inl rfl) rfl
  | leave c =>
    obtain ⟨-, l, took, sent, stalled, hp⟩ := leave_cases ha
    exact h.leaveOffer hp
  | txIsr => exact h.still (fun _ => rfl) rfl rfl rfl rfl rfl (.inl rfl) rfl
  | recordBegin i =>
    simp only [enabled, Bool.and_eq_true] at ha
    exact h.recordBegin ha.1
  | recordEnd i deliver => exact h.krecordEnd hh i deliver
  | ask i claimLeft =>
    obtain ⟨o, w, p, heq, ho⟩ := lineTaken_eq b s (.thread i) claimLeft
    rw [State.next, heq]
    exact h.still (fun _ => rfl) rfl rfl rfl rfl rfl ho rfl
  | parkLine i claimLeft =>
    obtain ⟨o, w, p, heq, ho⟩ := lineTaken_eq b s (.thread i) claimLeft
    rw [State.next, heq]
    exact h.still (fun _ => rfl) rfl rfl rfl rfl rfl ho rfl
  | park i => exact h.still (fun _ => rfl) rfl rfl rfl rfl rfl (.inl rfl) rfl
  | wake i => exact h.still (fun _ => rfl) rfl rfl rfl rfl rfl (.inl rfl) rfl
  | publish p =>
    simp only [enabled, Bool.and_eq_true, beq_iff_eq] at ha
    obtain ⟨w, n, heq⟩ := handoverBegin_eq s p
    rw [State.next, heq]
    exact h.still (speaks_set rfl (by rw [ha.1.1.2]; rfl)) rfl rfl rfl rfl rfl (.inl rfl) rfl
  | looked p =>
    simp only [enabled, Bool.and_eq_true, beq_iff_eq] at ha
    exact h.still (speaks_set rfl (by rw [ha.1.2]; rfl)) rfl rfl rfl rfl rfl (.inl rfl) rfl
  | setUser p free =>
    simp only [enabled, Bool.and_eq_true, beq_iff_eq] at ha
    obtain ⟨_, _, _, _, _, _, _, _, _, heq⟩ := ownerSetUser_eq (s.setPlace (.thread p) .out) free
    rw [State.next, heq]
    exact h.still (speaks_set rfl (by rw [ha.2]; rfl)) rfl rfl rfl rfl rfl (.inl rfl) rfl
  | driverEnded free =>
    obtain ⟨d, o, w, l, p, heq⟩ := onDriverDeath_eq { s with driverDied := true } free
    rw [State.next, heq]
    exact h.still (fun _ => rfl) rfl rfl rfl rfl rfl (.inl rfl) rfl
  | retry free =>
    obtain ⟨d, o, w, l, p, heq⟩ := onDriverDeath_eq s free
    rw [State.next, heq]
    exact h.still (fun _ => rfl) rfl rfl rfl rfl rfl (.inl rfl) rfl
  | panic =>
    obtain ⟨c, a, o, w, l, n, heq⟩ := kpanicEnter_eq s
    rw [State.next, heq]
    exact h.still (fun _ => rfl) rfl rfl rfl rfl rfl (.inl rfl) rfl
  | panicUnlocked =>
    obtain ⟨w, heq⟩ := kpanicEnterUnlocked_eq s
    rw [State.next, heq]
    exact h.still (fun _ => rfl) rfl rfl rfl rfl rfl (.inl rfl) rfl
  | panicWrite => exact h.still (fun _ => rfl) rfl rfl rfl rfl rfl (.inl rfl) rfl
  | slay i => exact h.still (fun _ => rfl) rfl rfl rfl rfl rfl (.inl rfl) rfl
  | slayExit i => exact h.slayExit hh hok
  | exit i =>
    obtain ⟨-, hout, hin⟩ := hh.exit_out ha
    exact h.exit hout hin hok
  | spawn i =>
    simp only [enabled, Bool.and_eq_true, Bool.not_eq_true'] at ha
    exact h.spawn hh ha.2

end State

open State

theorem Reach.spoken {b : Build} {s : State} (h : Reach b Clears s) : s.Spoken b := by
  induction h with
  | boot armed =>
    refine ⟨(fun _ hk => by cases hk), (fun _ hk => by cases hk), (fun _ hk => by cases hk), ?_, fun _ _ hk => by cases hk⟩
    exact (Lib.count_eq_zero.2 fun _ _ => rfl).symm
  | step hs a ha hok ih => exact ih.next hs.housed ha hok

/-- Whoever makes `line_taken` refuse is there: a context inside its line, a thread in its record, or one with its line open. -/
theorem lineTaken_alive {b : Build} {s : State} (h : s.Spoken b) {key : Key} {claimLeft : Bool}
    (ht : (s.lineTaken b key claimLeft).1 = true) :
    (∃ k, s.line.writer = some k ∧ s.Writes k) ∨ (∃ i, s.line.record = some i ∧ s.Records i) ∨
      (∃ i, s.live i = true ∧ s.inRecord i = true) ∨ ∃ i, s.line.openBy = some i ∧ s.live i = true ∧ s.exiting i = false := by
  have hwriter : s.line.writer.isSome = true → ∃ k, s.line.writer = some k ∧ s.Writes k := by
    intro hw
    obtain ⟨k, hk⟩ := Option.isSome_iff_exists.1 hw
    exact ⟨k, hk, h.writer k hk⟩
  unfold lineTaken at ht
  split_ifs at ht with h1 h2 h3 h4 h5 h6
  · simp only [Bool.or_eq_true, Bool.and_eq_true] at ht
    rcases ht with ht | ht
    · exact .inl (hwriter ht.1)
    · obtain ⟨i, hi⟩ := Option.isSome_iff_exists.1 ht.1
      exact .inr (.inl ⟨i, hi, h.record i hi⟩)
  · rw [h.records] at h2
    obtain ⟨i, -, hi⟩ := Lib.count_pos.1 (Nat.pos_of_ne_zero h2)
    rw [Bool.and_eq_true] at hi
    exact .inr (.inr (.inl ⟨i, hi⟩))
  · exact .inl (hwriter h3.1)
  · obtain ⟨i, hi⟩ := Option.ne_none_iff_exists'.1 fun hn => h5 (.inl hn)
    obtain ⟨o1, o2, -⟩ := h.openBy i hi
    exact .inr (.inr (.inr ⟨i, hi, o1, o2⟩))

/-- In every run whose steps clear what they must: an owner of the line is there and still has it, the count is that of the
threads in a record, and nobody that is gone refuses a later writer. -/
theorem owners_speak {b : Build} {s : State} (h : Reach b Clears s) :
    (∀ k, s.line.writer = some k → s.Writes k) ∧ (∀ i, s.line.record = some i → s.Records i) ∧
      (∀ i, s.line.openBy = some i → s.live i = true ∧ s.exiting i = false) ∧ s.line.records = openRecords b s ∧
      ∀ key claimLeft, (s.lineTaken b key claimLeft).1 = true →
        (∃ k, s.line.writer = some k ∧ s.Writes k) ∨ (∃ i, s.line.record = some i ∧ s.Records i) ∨
          (∃ i, s.live i = true ∧ s.inRecord i = true) ∨
            ∃ i, s.line.openBy = some i ∧ s.live i = true ∧ s.exiting i = false := by
  have hs := h.spoken
  exact ⟨hs.writer, hs.record, fun i hi => ⟨(hs.openBy i hi).1, (hs.openBy i hi).2.1⟩, hs.records,
    fun _ _ ht => lineTaken_alive hs ht⟩

def twoThreads : Build := ⟨false, 2, 1, by decide⟩

/-- The line of a record goes out, on a console without its ring. -/
def recordLine (i : Nat) : List Act :=
  [.recordBegin i, .enter (.thread i) ⟨1, .record⟩ false false i 0, .queue (.thread i) false]

/-- Thread 0 is slain inside its record's line and gone; then thread 1 begins a record of its own. -/
def slainInRecord : List Act :=
  [.spawn 0, .spawn 1] ++ recordLine 0 ++ [.take (.thread 0) false, .slay 0, .slayExit 0, .exit 0] ++ recordLine 1

/-- Thread 0 is gone, the line is still its record's, and thread 1's record is refused. -/
theorem slain_record_keeps_line : Reachable twoThreads (({ armed := false } : State).run twoThreads slainInRecord).1 ∧
    (({ armed := false } : State).run twoThreads slainInRecord).1.line.record = some 0 ∧
    (({ armed := false } : State).run twoThreads slainInRecord).1.live 0 = false ∧
    ((({ armed := false } : State).run twoThreads slainInRecord).1.lineTaken twoThreads (.thread 1) false).1 = true :=
  ⟨Reachable.run slainInRecord (Reach.boot false) (by decide), by decide, by decide, by decide⟩

theorem inRecord_reach : Reach twoThreads Clears
    (({ armed := false } : State).run twoThreads (.spawn 0 :: (recordLine 0 ++ [.take (.thread 0) false]))).1 :=
  ((((Reach.boot false).step (.spawn 0) (by decide) trivial).step (.recordBegin 0) (by decide) trivial).step
    (.enter (.thread 0) ⟨1, .record⟩ false false 0 0) (by decide) trivial).step (.queue (.thread 0) false) (by decide) trivial
    |>.step (.take (.thread 0) false) (by decide) trivial

theorem owners_speak_inRecord :
    (({ armed := false } : State).run twoThreads (.spawn 0 :: (recordLine 0 ++ [.take (.thread 0) false]))).1.Records 0 :=
  (owners_speak inRecord_reach).2.1 0 (by decide)

end Console
end KickOS
