import KickOS.Trace.Record

/-! When the loop of `parse` only moves forward: what the resynchronisation answers, what a turn does at every position,
and from these the walk over a whole capture. -/

namespace KickOS.Trace

/-- A session begins at `h`, as far as the resynchronisation can tell. -/
def Head (data : Bytes) (h : Nat) : Prop := data[h]? = some evSession ∧ Holds data (h + 7) (putU32 traceMagic)

section Resync

variable {data : Bytes} {start h : Nat}

theorem Head.lt (hh : Head data h) : h + 11 ≤ data.length := by
  have hle := hh.2.le (List.cons_ne_nil _ _)
  simpa [putU32] using hle

/-- The resynchronisation answers the first head whose magic is not before the place it starts at. -/
theorem findMagic_eq_some (hf : findMagic data start = some h) :
    Head data h ∧ start ≤ h + 7 ∧ ∀ h', Head data h' → start ≤ h' + 7 → h ≤ h' := by
  induction start using findMagic.induct data with
  | case1 start hnone =>
    rw [findMagic, hnone] at hf
    cases hf
  | case2 start j hj htype =>
    rw [findMagic, hj] at hf
    simp only [htype, and_self, if_true, Option.some.injEq] at hf
    subst hf
    obtain ⟨hle, -, hat, hfirst⟩ := find_eq_some hj
    have hback : j - 7 + 7 = j := by omega
    refine ⟨⟨htype.2, by rwa [hback]⟩, by omega, ?_⟩
    intro h' hh' hs'
    by_contra hlt
    exact hfirst (h' + 7) hs' (by omega) hh'.2
  | case3 start j hj htype ih =>
    rw [findMagic, hj] at hf
    simp only [htype, if_false] at hf
    obtain ⟨hle, -, hat, hfirst⟩ := find_eq_some hj
    obtain ⟨hhead, hs, hleast⟩ := ih hf
    refine ⟨hhead, by omega, ?_⟩
    intro h' hh' hs'
    -- a magic before the next one is none, and the next one has no session seven bytes before it
    have hpast : j < h' + 7 := by
      by_contra hnot
      obtain heq | hlt := Nat.eq_or_lt_of_le (not_lt.mp hnot)
      · exact htype ⟨by omega, by rw [← heq, Nat.add_sub_cancel]; exact hh'.1⟩
      · exact hfirst (h' + 7) hs' hlt hh'.2
    exact hleast h' hh' hpast

theorem findMagic_eq_none (hf : findMagic data start = none) (h : Nat) (hs : start ≤ h + 7) : ¬ Head data h := by
  induction start using findMagic.induct data with
  | case1 start hnone =>
    intro hh
    exact find_eq_none (List.cons_ne_nil _ _) hnone (h + 7) hs hh.2
  | case2 start j hj htype =>
    rw [findMagic, hj] at hf
    simp [htype] at hf
  | case3 start j hj htype ih =>
    rw [findMagic, hj] at hf
    simp only [htype, if_false] at hf
    intro hh
    obtain ⟨hle, -, hat, hfirst⟩ := find_eq_some hj
    obtain hlt | heq | hgt := Nat.lt_trichotomy (h + 7) j
    · exact hfirst (h + 7) hs hlt hh.2
    · exact htype ⟨by omega, by rw [← heq, Nat.add_sub_cancel]; exact hh.1⟩
    · exact ih hf hgt hh

end Resync

section Turns

variable {data : Bytes} {i : Nat} {r : Record} {e : Event}

theorem recLen_type (r : Record) : recLen r.event.type = some r.bytes.length := by
  obtain ⟨e, seq, t⟩ := r
  cases e <;> rfl

theorem recLen_bounds {t : BitVec 8} {rl : Nat} (hrl : recLen t = some rl) : 9 ≤ rl ∧ rl ≤ 28 := by
  unfold recLen at hrl
  split_ifs at hrl <;> cases hrl <;> simp

theorem bytes_ne_nil (r : Record) : r.bytes ≠ [] := by
  simp [Record.bytes, putPrefix, putU8]

theorem holds_bytes : Holds data i r.bytes ↔
    data[i]? = some r.event.type ∧ u16 data (i + 1) = some r.seq ∧ u32 data (i + 3) = some r.t ∧
      Holds data (i + 7) r.event.payload := by
  simp only [Record.bytes, putPrefix, holds_append, u16_eq_some, u32_eq_some, ← u8_eq_some]
  simp only [u8, putU8, putU16, putU32, List.length_append, List.length_cons, List.length_nil, and_assoc]

theorem payload_session {ver arch tsBits : BitVec 8} {probe : BitVec 16} {attempted : BitVec 32} {anchor : BitVec 64} :
    Holds data (i + 7) (Event.session ver arch tsBits probe attempted anchor).payload ↔
      u32 data (i + 7) = some traceMagic ∧ sessionFields data i = some (.session ver arch tsBits probe attempted anchor) := by
  simp only [Event.payload, holds_append, ← u8_eq_some, ← u16_eq_some, ← u32_eq_some, ← u64_eq_some]
  simp only [putU8, putU16, putU32, List.length_append, List.length_cons, List.length_nil, and_assoc, sessionFields,
    Option.bind_eq_bind, Option.bind_eq_some_iff, Option.pure_def, Option.some.injEq, Event.session.injEq]
  refine and_congr_right fun _ => ?_
  constructor
  · rintro ⟨hv, ha, ht, hp, hn, hc⟩
    exact ⟨_, hv, _, ha, _, ht, _, hp, _, hn, _, hc, rfl, rfl, rfl, rfl, rfl, rfl⟩
  · rintro ⟨_, hv, _, ha, _, ht, _, hp, _, hn, _, hc, rfl, rfl, rfl, rfl, rfl, rfl⟩
    exact ⟨hv, ha, ht, hp, hn, hc⟩

theorem pair_payload {a b : BitVec 16} : Holds data (i + 7) (putU16 a ++ putU16 b) ↔ u16 data (i + 7) = some a ∧
    u16 data (i + 9) = some b := by
  rw [holds_append, ← u16_eq_some, ← u16_eq_some]
  rfl

theorem fields_of_holds (hs : e.type ≠ evSession) (h : Holds data (i + 7) e.payload) : fields data i e.type = some e := by
  cases e with
  | session => exact absurd rfl hs
  | switch a b =>
    obtain ⟨ha, hb⟩ := pair_payload.mp h
    simp [fields, Event.type, ha, hb]
  | syscallEnter a b =>
    obtain ⟨ha, hb⟩ := pair_payload.mp h
    simp [fields, Event.type, evSyscallEnter, evSwitch, ha, hb]
  | syscallExit a b =>
    obtain ⟨ha, hb⟩ := pair_payload.mp h
    simp [fields, Event.type, evSyscallExit, evSyscallEnter, evSwitch, ha, hb]
  | irqEnter line =>
    have ha := u16_eq_some.mpr h
    simp [fields, Event.type, evIrqEnter, evSyscallExit, evSyscallEnter, evSwitch, ha]
  | irqExit line =>
    have ha := u16_eq_some.mpr h
    simp [fields, Event.type, evIrqExit, evIrqEnter, evSyscallExit, evSyscallEnter, evSwitch, ha]

theorem holds_of_fields {t : BitVec 8} (h : fields data i t = some e) : e.type = t ∧ Holds data (i + 7) e.payload := by
  unfold fields at h
  split_ifs at h
  all_goals
    simp only [Option.bind_eq_bind, Option.bind_eq_some_iff, Option.pure_def, Option.some.injEq] at h
  · obtain ⟨a, ha, b, hb, rfl⟩ := h
    exact ⟨by simp [Event.type, *], pair_payload.mpr ⟨ha, hb⟩⟩
  · obtain ⟨a, ha, b, hb, rfl⟩ := h
    exact ⟨by simp [Event.type, *], pair_payload.mpr ⟨ha, hb⟩⟩
  · obtain ⟨a, ha, b, hb, rfl⟩ := h
    exact ⟨by simp [Event.type, *], pair_payload.mpr ⟨ha, hb⟩⟩
  · obtain ⟨a, ha, rfl⟩ := h
    exact ⟨by simp [Event.type, *], u16_eq_some.mp ha⟩
  · obtain ⟨a, ha, rfl⟩ := h
    exact ⟨by simp [Event.type, *], u16_eq_some.mp ha⟩

theorem turn_of_holds (h : Holds data i r.bytes) : turn data i = some (.record r r.bytes.length) := by
  have hle := h.le (bytes_ne_nil r)
  obtain ⟨htype, hseq, ht, hp⟩ := holds_bytes.mp h
  obtain ⟨e, seq, t⟩ := r
  simp only at htype hseq ht hp
  simp only [turn, htype, Option.bind_eq_bind, Option.bind_some, recLen_type ⟨e, seq, t⟩, not_lt.mpr hle, if_false, hseq, ht]
  by_cases hs : e.type = evSession
  · cases e with
    | session ver arch tsBits probe attempted anchor =>
      obtain ⟨hmagic, hfields⟩ := payload_session.mp hp
      simp [hs, hmagic, hfields]
    | _ => cases hs
  · simp [hs, fields_of_holds hs hp]

theorem fields_of_recLen {t : BitVec 8} {rl : Nat} (hs : t ≠ evSession) (hrl : recLen t = some rl) (hle : i + rl ≤ data.length) :
    ∃ e, fields data i t = some e := by
  have hlen : 9 ≤ rl := (recLen_bounds hrl).1
  obtain ⟨a, ha⟩ := u16_of_le (show i + 7 + 2 ≤ data.length by omega)
  rw [recLen, if_neg hs] at hrl
  split_ifs at hrl with hsw hsc hirq
  · cases hrl
    obtain ⟨b, hb⟩ := u16_of_le (show i + 9 + 2 ≤ data.length by omega)
    subst hsw
    exact ⟨_, fields_of_holds (e := .switch a b) hs (pair_payload.mpr ⟨ha, hb⟩)⟩
  · cases hrl
    obtain ⟨b, hb⟩ := u16_of_le (show i + 9 + 2 ≤ data.length by omega)
    obtain rfl | rfl := hsc
    · exact ⟨_, fields_of_holds (e := .syscallEnter a b) hs (pair_payload.mpr ⟨ha, hb⟩)⟩
    · exact ⟨_, fields_of_holds (e := .syscallExit a b) hs (pair_payload.mpr ⟨ha, hb⟩)⟩
  · obtain rfl | rfl := hirq
    · exact ⟨_, fields_of_holds (e := .irqEnter a) hs (u16_eq_some.mp ha)⟩
    · exact ⟨_, fields_of_holds (e := .irqExit a) hs (u16_eq_some.mp ha)⟩

/-- No record stands where the resynchronisation is entered, and a turn that does not enter it takes the record that
stands there. -/
theorem turn_takes (hi : i < data.length) :
    (∃ r : Record, Holds data i r.bytes) ∨ turn data i = some (skipTail data i) ∨ turn data i = some (skipSession data i) := by
  obtain ⟨t, ht⟩ : ∃ t, data[i]? = some t := ⟨_, List.getElem?_eq_getElem hi⟩
  obtain hnone | ⟨rl, hrl⟩ := Option.eq_none_or_eq_some (recLen t)
  · simp [turn, ht, hnone]
  by_cases hcut : data.length < i + rl
  · simp [turn, ht, hrl, hcut]
  have hlen : 9 ≤ rl := (recLen_bounds hrl).1
  obtain ⟨seq, hseq⟩ := u16_of_le (show i + 1 + 2 ≤ data.length by omega)
  obtain ⟨ts, hts⟩ := u32_of_le (show i + 3 + 4 ≤ data.length by omega)
  by_cases hs : t = evSession
  · subst hs
    obtain rfl : 28 = rl := by simpa [recLen] using hrl
    obtain ⟨magic, hmagic⟩ := u32_of_le (show i + 7 + 4 ≤ data.length by omega)
    by_cases hbad : magic = traceMagic
    · subst hbad
      obtain ⟨ver, hver⟩ := u8_of_le (show i + 11 + 1 ≤ data.length by omega)
      obtain ⟨arch, harch⟩ := u8_of_le (show i + 12 + 1 ≤ data.length by omega)
      obtain ⟨bits, hbits⟩ := u8_of_le (show i + 13 + 1 ≤ data.length by omega)
      obtain ⟨probe, hprobe⟩ := u16_of_le (show i + 14 + 2 ≤ data.length by omega)
      obtain ⟨attempted, hattempted⟩ := u32_of_le (show i + 16 + 4 ≤ data.length by omega)
      obtain ⟨anchor, hanchor⟩ := u64_of_le (show i + 20 + 8 ≤ data.length by omega)
      refine .inl ⟨⟨.session ver arch bits probe attempted anchor, seq, ts⟩, holds_bytes.mpr ⟨ht, hseq, hts, ?_⟩⟩
      exact payload_session.mpr ⟨hmagic, by simp [sessionFields, hver, harch, hbits, hprobe, hattempted, hanchor]⟩
    · simp [turn, ht, hrl, hcut, hseq, hts, hmagic, hbad]
  · obtain ⟨e, he⟩ := fields_of_recLen hs hrl (not_lt.mp hcut)
    obtain ⟨rfl, hp⟩ := holds_of_fields he
    exact .inl ⟨⟨e, seq, ts⟩, holds_bytes.mpr ⟨ht, hseq, hts, hp⟩⟩

theorem turn_cases (hi : i < data.length) :
    (∃ r, Holds data i r.bytes ∧ turn data i = some (.record r r.bytes.length)) ∨
    ((∀ r : Record, ¬ Holds data i r.bytes) ∧ findMagic data (i + 1) = none ∧ ∃ error, turn data i = some (.stop error)) ∨
    ((∀ r : Record, ¬ Holds data i r.bytes) ∧ ∃ j error, findMagic data (i + 1) = some j ∧
      turn data i = some (.resync error j)) := by
  by_cases hr : ∃ r : Record, Holds data i r.bytes
  · obtain ⟨r, hr⟩ := hr
    exact .inl ⟨r, hr, turn_of_holds hr⟩
  have hskip := (turn_takes hi).resolve_left hr
  push Not at hr
  unfold skipTail skipSession at hskip
  obtain hnone | ⟨j, hj⟩ := Option.eq_none_or_eq_some (findMagic data (i + 1))
  · simp only [hnone] at hskip
    exact .inr (.inl ⟨hr, hnone, hskip.elim (fun h => ⟨_, h⟩) fun h => ⟨_, h⟩⟩)
  · simp only [hj] at hskip
    exact .inr (.inr ⟨hr, j, hskip.elim (fun h => ⟨_, hj, h⟩) fun h => ⟨_, hj, h⟩⟩)

end Turns

section Walks

variable {data : Bytes} {w w' : Walk}

theorem step_cases (hi : w.i < data.length) :
    (∃ r, Holds data w.i r.bytes ∧
      w.step data = some (true, { w with i := w.i + r.bytes.length, recs := w.recs ++ [(w.i, r)] })) ∨
    ((∀ r : Record, ¬ Holds data w.i r.bytes) ∧ findMagic data (w.i + 1) = none ∧
      ∃ error, w.step data = some (false, { w with errors := w.errors ++ [error] })) ∨
    ((∀ r : Record, ¬ Holds data w.i r.bytes) ∧ ∃ j error, findMagic data (w.i + 1) = some j ∧
      w.step data = some (true, { w with i := j, errors := w.errors ++ [error] })) := by
  unfold Walk.step
  obtain ⟨r, hr, ht⟩ | ⟨hr, hnone, error, ht⟩ | ⟨hr, j, error, hj, ht⟩ := turn_cases hi
  · exact .inl ⟨r, hr, by rw [ht]⟩
  · exact .inr (.inl ⟨hr, hnone, error, by rw [ht]⟩)
  · exact .inr (.inr ⟨hr, j, error, hj, by rw [ht]⟩)

/-- Every record kept so far stands at the position it was read from. -/
def Walk.Formed (data : Bytes) (w : Walk) : Prop := ∀ p ∈ w.recs, Holds data p.1 p.2.bytes

theorem step_formed {more : Bool} (hi : w.i < data.length) (hw : w.Formed data) (hs : w.step data = some (more, w')) :
    w'.Formed data := by
  obtain ⟨r, hr, ht⟩ | ⟨-, -, error, ht⟩ | ⟨-, j, error, -, ht⟩ := step_cases hi
  all_goals
    rw [ht] at hs
    cases hs
  · intro p hp
    obtain hp | hp := List.mem_append.mp hp
    · exact hw p hp
    · cases List.mem_singleton.mp hp
      exact hr
  · exact hw
  · exact hw

theorem walk_formed {fuel : Nat} (hw : w.Formed data) (h : walk data fuel w = some w') : w'.Formed data := by
  induction fuel generalizing w with
  | zero =>
    rw [walk] at h
    split_ifs at h
    cases h
    exact hw
  | succ fuel ih =>
    rw [walk] at h
    split_ifs at h with hi
    · obtain ⟨more, next, hs⟩ : ∃ more next, w.step data = some (more, next) := by
        obtain ⟨r, -, ht⟩ | ⟨-, -, error, ht⟩ | ⟨-, j, error, -, ht⟩ := step_cases hi
        all_goals exact ⟨_, _, ht⟩
      rw [hs] at h
      cases more with
      | true => exact ih (step_formed hi hw hs) h
      | false =>
        cases h
        exact step_formed hi hw hs
    · cases h
      exact hw

end Walks

/-- `parse` returns, each turn of its loop that goes on moves the position forward, and the records it returns stand in
the data where they were read from. -/
structure Decodes (data : Bytes) : Prop where
  returns : ∃ fuel w, walk data fuel {} = some w
  forward : ∀ w w', Reaches data w → w.i < data.length → w.step data = some (true, w') → w.i < w'.i
  formed : ∀ fuel w, walk data fuel {} = some w → ∀ p ∈ w.recs, Holds data p.1 p.2.bytes

/-- The positions at which a record is due: the start of the data, the end of a record that is due and stands there
whole, and the next head behind a position where none does. -/
inductive Due (data : Bytes) : Nat → Prop
  | start : Due data 0
  | behind {i : Nat} {r : Record} : Due data i → Holds data i r.bytes → Due data (i + r.bytes.length)
  | head {i h : Nat} : Due data i → (∀ r : Record, ¬ Holds data i r.bytes) → i < h → Head data h →
    (∀ h', i < h' → Head data h' → h ≤ h') → Due data h

/-- Where a record is due and none stands whole, no head is at the position or less than seven bytes before it. -/
def Clear (data : Bytes) : Prop :=
  ∀ i, Due data i → (∀ r : Record, ¬ Holds data i r.bytes) → ∀ h, Head data h → h ≤ i → h + 7 ≤ i

section Clear

variable {data : Bytes} {w w' : Walk}

theorem Clear.step (hc : Clear data) (hd : Due data w.i) (hi : w.i < data.length) (hs : w.step data = some (true, w')) :
    w.i < w'.i ∧ Due data w'.i := by
  obtain ⟨r, hr, ht⟩ | ⟨-, -, error, ht⟩ | ⟨hr, j, error, hj, ht⟩ := step_cases hi
  all_goals
    rw [ht] at hs
    cases hs
  · have hpos := List.length_pos_of_ne_nil (bytes_ne_nil r)
    exact ⟨by simp only; omega, hd.behind hr⟩
  · obtain ⟨hhead, hle, hleast⟩ := findMagic_eq_some hj
    have hlt : w.i < j := by
      by_contra hnot
      have := hc w.i hd hr j hhead (not_lt.mp hnot)
      omega
    exact ⟨hlt, hd.head hr hlt hhead fun h' hh' hhead' => hleast h' hhead' (by omega)⟩

theorem Clear.reaches (hc : Clear data) (h : Reaches data w) : Due data w.i := by
  induction h with
  | start => exact .start
  | next _ hi hs ih => exact (hc.step ih hi hs).2

theorem Clear.returns (hc : Clear data) (fuel : Nat) (hd : Due data w.i) (hf : data.length ≤ w.i + fuel) :
    ∃ w', walk data fuel w = some w' := by
  induction fuel generalizing w with
  | zero => exact ⟨w, by rw [walk, if_neg (by omega)]⟩
  | succ fuel ih =>
    rw [walk]
    split_ifs with hi
    · obtain ⟨r, hr, ht⟩ | ⟨-, -, error, ht⟩ | ⟨hr, j, error, hj, ht⟩ := step_cases hi
      · obtain ⟨hlt, hd'⟩ := hc.step hd hi ht
        rw [ht]
        exact ih hd' (by omega)
      · rw [ht]
        exact ⟨_, rfl⟩
      · obtain ⟨hlt, hd'⟩ := hc.step hd hi ht
        rw [ht]
        exact ih hd' (by omega)
    · exact ⟨w, rfl⟩

theorem Decodes.reaches (hdec : Decodes data) {i : Nat} (hd : Due data i) : ∃ w, Reaches data w ∧ w.i = i := by
  induction hd with
  | start => exact ⟨{}, .start, rfl⟩
  | @behind i r hd hr ih =>
    obtain ⟨w, hw, rfl⟩ := ih
    have hle := hr.le (bytes_ne_nil r)
    have hpos := List.length_pos_of_ne_nil (bytes_ne_nil r)
    have hi : w.i < data.length := by omega
    exact ⟨_, hw.next hi (by rw [Walk.step, turn_of_holds hr]), rfl⟩
  | @head i h hd hr hlt hhead hleast ih =>
    obtain ⟨w, hw, rfl⟩ := ih
    have hi : w.i < data.length := by
      have := hhead.lt
      omega
    obtain ⟨r, hr', -⟩ | ⟨-, hnone, -⟩ | ⟨-, j, error, hj, ht⟩ := step_cases hi
    · exact absurd hr' (hr r)
    · exact absurd hhead (findMagic_eq_none hnone h (by omega))
    · have hfwd := hdec.forward w _ hw hi ht
      obtain ⟨hjhead, -, hjleast⟩ := findMagic_eq_some hj
      obtain rfl : j = h := le_antisymm (hjleast h hhead (by omega)) (hleast j hfwd hjhead)
      exact ⟨_, hw.next hi ht, rfl⟩

theorem Decodes.clear (hdec : Decodes data) : Clear data := by
  intro i hd hr h hhead hle
  obtain ⟨w, hw, rfl⟩ := hdec.reaches hd
  by_contra hnot
  have hi : w.i < data.length := by
    have := hhead.lt
    omega
  obtain ⟨r, hr', -⟩ | ⟨-, hnone, -⟩ | ⟨-, j, error, hj, ht⟩ := step_cases hi
  · exact hr r hr'
  · exact findMagic_eq_none hnone h (by omega) hhead
  · have hfwd := hdec.forward w _ hw hi ht
    have := (findMagic_eq_some hj).2.2 h hhead (by omega)
    simp only at hfwd
    omega

end Clear

/-- Decoding terminates, moving forward only, exactly when no head stands at a torn position or less than seven bytes
before it. -/
theorem parse_forward_iff (data : Bytes) : Decodes data ↔ Clear data := by
  refine ⟨Decodes.clear, fun hc => ⟨?_, ?_, ?_⟩⟩
  · obtain ⟨w, hw⟩ := hc.returns (w := {}) data.length .start (by omega)
    exact ⟨_, w, hw⟩
  · intro w w' hw hi hs
    exact (hc.step (hc.reaches hw) hi hs).1
  · intro fuel w hw
    refine walk_formed ?_ hw
    intro p hp
    cases hp

section CutSession

variable {data : Bytes} {w : Walk}

/-- A capture that ends in its first session, behind the magic, is read from its start again and again. -/
theorem step_cutSession (hh : Head data 0) (hcut : data.length < 28) (hw : w.i = 0) :
    ∃ w', w.step data = some (true, w') ∧ w'.i = 0 := by
  have hlen := hh.lt
  have hi : w.i < data.length := by omega
  obtain ⟨r, hr, -⟩ | ⟨-, hnone, -⟩ | ⟨-, j, error, hj, ht⟩ := step_cases hi
  · have hle := hr.le (bytes_ne_nil r)
    have htype := (holds_bytes.mp hr).1
    rw [hw, hh.1, Option.some.injEq] at htype
    have hrl := recLen_type r
    rw [← htype, recLen, if_pos rfl, Option.some.injEq] at hrl
    omega
  · exact absurd hh (findMagic_eq_none hnone 0 (by omega))
  · have hj0 := (findMagic_eq_some hj).2.2 0 hh (by omega)
    exact ⟨_, ht, Nat.le_zero.mp hj0⟩

theorem walk_cutSession (hh : Head data 0) (hcut : data.length < 28) (fuel : Nat) (hw : w.i = 0) : walk data fuel w = none := by
  have hlen := hh.lt
  induction fuel generalizing w with
  | zero => rw [walk, if_pos (by omega)]
  | succ fuel ih =>
    obtain ⟨w', hs, hw'⟩ := step_cutSession hh hcut hw
    rw [walk, if_pos (by omega), hs]
    exact ih hw'

end CutSession

/-- The first session of a trace, of which a capture has the first eleven bytes. -/
def cutSession : Bytes := (encodeSession 0 0 0 32 0 1 0).take 11

/-- On a session cut behind its magic the loop never ends. -/
theorem parse_loops_on_cutSession : ¬ Decodes cutSession ∧ ∀ fuel, parse cutSession fuel = none := by
  have hh : Head cutSession 0 := ⟨rfl, ⟨[], rfl⟩⟩
  have hcut : cutSession.length < 28 := by decide
  constructor
  · intro hdec
    obtain ⟨fuel, w, hw⟩ := hdec.returns
    rw [walk_cutSession hh hcut fuel rfl] at hw
    cases hw
  · intro fuel
    rw [parse, walk_cutSession hh hcut fuel rfl, Option.map_none]

end KickOS.Trace
