import KickOS.Trace.Account

/-! The host's account of a trace it has drained: what `parse` and `loss_scan` make of it, against what was emitted. -/

namespace KickOS.Trace

section Decoding

theorem walk_records (recs : List Record) (front : Bytes) (w : Walk) (hw : w.i = front.length) :
    ∃ w', walk (front ++ recs.flatMap Record.bytes) recs.length w = some w' ∧ w'.recs.map Prod.snd = w.recs.map Prod.snd ++ recs ∧
      w'.errors = w.errors := by
  induction recs generalizing front w with
  | nil =>
    refine ⟨w, ?_, by simp, rfl⟩
    rw [List.length_nil, walk, if_neg (by simp [hw])]
  | cons r recs ih =>
    have hcat : front ++ (r :: recs).flatMap Record.bytes = (front ++ r.bytes) ++ recs.flatMap Record.bytes := by
      rw [List.flatMap_cons, List.append_assoc]
    have hr : Holds (front ++ (r :: recs).flatMap Record.bytes) w.i r.bytes := by
      rw [hw, List.flatMap_cons]
      exact ⟨recs.flatMap Record.bytes, by rw [List.drop_left]⟩
    have hle := hr.le (bytes_ne_nil r)
    have hpos := List.length_pos_of_ne_nil (bytes_ne_nil r)
    obtain ⟨w', hwalk, hrecs, herr⟩ := ih (front ++ r.bytes) { w with i := w.i + r.bytes.length, recs := w.recs ++ [(w.i, r)] }
      (by rw [List.length_append, hw])
    refine ⟨w', ?_, ?_, herr⟩
    · rw [List.length_cons, walk, if_pos (by omega), Walk.step, turn_of_holds hr]
      rw [hcat]
      exact hwalk
    · rw [hrecs]
      simp

theorem parse_records (recs : List Record) : ∃ fuel, parse (recs.flatMap Record.bytes) fuel = some (recs, []) := by
  obtain ⟨w', hwalk, hrecs, herr⟩ := walk_records recs [] {} rfl
  refine ⟨recs.length, ?_⟩
  rw [List.nil_append] at hwalk
  rw [parse, hwalk, Option.map_some, hrecs, herr]
  rfl

end Decoding

/-- No `n` records in a row were dropped. -/
def DropsBelow (n : Nat) (log : List (Record × Bool)) : Prop :=
  ∀ l₁ l l₂, log = l₁ ++ l ++ l₂ → (∀ p ∈ l, p.2 = false) → l.length < n

section Scan

variable {log : List (Record × Bool)}

theorem miss_eq {m d : Nat} (hd : d < seqMod) : ((((m + d) % seqMod : Nat) : Int) - ((m % seqMod : Nat) : Int)) % seqMod = d := by
  unfold seqMod at *
  omega

theorem lossFrom_eq (drops : List (Record × Bool)) (m idx lost : Nat) (gaps : List Nat) (hgap : DropsBelow seqMod (drops ++ log))
    (hdrops : ∀ p ∈ drops, p.2 = false) (hnum : ∀ i p, log[i]? = some p → p.1.seq = BitVec.ofNat 16 (m + drops.length + i)) :
    (lossFrom (some (m % seqMod)) idx lost gaps (accepted log)).1 =
      lost + (if log.any Prod.snd then drops.length else 0) + dropsFollowed log := by
  induction log generalizing drops m idx lost gaps with
  | nil => simp [accepted, lossFrom, dropsFollowed]
  | cons p log ih =>
    obtain ⟨r, ok⟩ := p
    cases ok with
    | false =>
      have hrest := ih (drops ++ [(r, false)]) m idx lost gaps (by simpa using hgap)
        (by
          intro p hp
          obtain hp | hp := List.mem_append.mp hp
          · exact hdrops p hp
          · rw [List.mem_singleton.mp hp])
        (by
          intro i p hp
          rw [hnum (i + 1) p (by simpa using hp), List.length_append, List.length_singleton]
          congr 1
          omega)
      have hacc : accepted ((r, false) :: log) = accepted log := by simp [accepted]
      rw [hacc, hrest, dropsFollowed]
      simp only [List.any_cons, Bool.false_or, List.length_append, List.length_singleton]
      split_ifs with hany h2 h2
      · omega
      · simp [hany] at h2
      · simp [hany] at h2
      · omega
    | true =>
      have hd : drops.length < seqMod := hgap [] drops ((r, true) :: log) (by simp) hdrops
      have hseq : r.seq.toNat = (m + drops.length) % seqMod := by
        rw [hnum 0 (r, true) rfl, BitVec.toNat_ofNat, Nat.add_zero]
        rfl
      have hrest : ∀ idx lost gaps, (lossFrom (some ((m + drops.length + 1) % seqMod)) idx lost gaps (accepted log)).1 =
          lost + dropsFollowed log := by
        intro idx lost gaps
        rw [ih [] (m + drops.length + 1) idx lost gaps ?_ (by simp) ?_, List.length_nil, ite_self, Nat.add_zero]
        · intro l₁ l l₂ hl hfalse
          exact hgap (drops ++ (r, true) :: l₁) l l₂ (by simpa using hl) hfalse
        · intro i p hp
          rw [hnum (i + 1) p (by simpa using hp), List.length_nil]
          congr 1
          omega
      have hacc : accepted ((r, true) :: log) = r :: accepted log := by simp [accepted]
      have hmiss := miss_eq (m := m) hd
      have hdrops' : dropsFollowed ((r, true) :: log) = dropsFollowed log := by simp [dropsFollowed]
      rw [hacc, lossFrom, hdrops']
      simp only [hseq, Nat.mod_add_mod, List.any_cons, Bool.true_or, if_true]
      split_ifs with heq
      · rw [heq, sub_self, Int.zero_emod] at hmiss
        rw [hrest]
        omega
      · rw [hrest, hmiss, Int.toNat_natCast]

theorem lossScan_eq (hgap : DropsBelow seqMod log) (hnum : Numbered log) (hfirst : ∀ p, log.head? = some p → p.2 = true) :
    (lossScan (accepted log)).1 = droppedBetween log := by
  cases log with
  | nil => rfl
  | cons p log =>
    obtain ⟨r, ok⟩ := p
    obtain rfl : ok = true := hfirst _ rfl
    have hacc : accepted ((r, true) :: log) = r :: accepted log := by simp [accepted]
    have hseq : (r.seq.toNat + 1) % seqMod = 1 % seqMod := by
      rw [(hnum 0 (r, true) rfl).1]
      rfl
    have hgap' : DropsBelow seqMod ([] ++ log) := by
      intro l₁ l l₂ hl hfalse
      exact hgap ((r, true) :: l₁) l l₂ (by simpa using hl) hfalse
    have hnum' : ∀ i p, log[i]? = some p → p.1.seq = BitVec.ofNat 16 (1 + ([] : List (Record × Bool)).length + i) := by
      intro i p hp
      rw [(hnum (i + 1) p (by simpa using hp)).1, List.length_nil]
      congr 1
      omega
    rw [hacc, lossScan, lossFrom, hseq, lossFrom_eq [] 1 1 0 [] hgap' (by simp) hnum']
    simp [droppedBetween, dropsFollowed]

theorem accepted_add_drops (h : ∀ p, log.getLast? = some p → p.2 = true) :
    (accepted log).length + dropsFollowed log = log.length := by
  induction log with
  | nil => rfl
  | cons p log ih =>
    obtain ⟨r, ok⟩ := p
    cases log with
    | nil =>
      obtain rfl : ok = true := h _ rfl
      rfl
    | cons p' log =>
      have hrest := ih (by simpa using h)
      have hany : (p' :: log).any Prod.snd = true := by
        rw [List.any_eq_true]
        exact ⟨_, List.getLast_mem (List.cons_ne_nil p' log),
          h _ (by rw [List.getLast?_cons_cons, List.getLast?_eq_some_getLast])⟩
      cases ok with
      | true =>
        have hacc : accepted ((r, true) :: p' :: log) = r :: accepted (p' :: log) := by simp [accepted]
        rw [hacc, dropsFollowed]
        simp only [List.length_cons] at hrest ⊢
        simp
        omega
      | false =>
        have hacc : accepted ((r, false) :: p' :: log) = accepted (p' :: log) := by simp [accepted]
        rw [hacc, dropsFollowed, hany]
        simp only [List.length_cons] at hrest ⊢
        simp
        omega

end Scan

/-- The account of a drained trace: the decoder gives back the records the ring took, and its scan the drops between
them. With a session taken last, the records it decoded and those it found lost are the count the session carries, which
wraps at 32 bits. -/
theorem telemetry_accounts {size : Nat} (h29 : 29 ≤ size) (h31 : size ≤ 2 ^ 31) (arch : BitVec 8)
    (buffer : Nat → BitVec 8) (acts : List Act) {x : St} (hx : (St.init size buffer).run arch acts = x)
    (hgaps : DropsBelow 65536 x.log) (hempty : x.up.rdOff = x.up.wrOff) :
    (∃ fuel, parse x.drained fuel = some (accepted x.log, [])) ∧ (lossScan (accepted x.log)).1 = droppedBetween x.log ∧
    ∀ r v a b p n c, x.log.getLast? = some (r, true) → r.event = .session v a b p n c →
      ((accepted x.log).length + (lossScan (accepted x.log)).1) % 2 ^ 32 = n.toNat := by
  have h : Inv size x := hx ▸ inv_run h29 h31 arch acts (inv_init h29 buffer)
  obtain ⟨q, hq, hstream⟩ := h.stream
  obtain rfl : q = [] := hq.eq_nil.mp hempty
  have hscan := lossScan_eq hgaps h.numbered h.first
  refine ⟨?_, hscan, ?_⟩
  · rw [← List.append_nil x.drained, hstream]
    exact parse_records _
  · intro r v a b p n c hlast hev
    have hdrops : droppedBetween x.log = dropsFollowed x.log := by
      unfold droppedBetween
      obtain ⟨p', l, hl⟩ : ∃ p' l, x.log = p' :: l := by
        cases hlog : x.log with
        | nil => simp [hlog] at hlast
        | cons p' l => exact ⟨p', l, rfl⟩
      rw [hl, List.dropWhile_cons_of_neg (by simp [h.first p' (by rw [hl]; rfl)])]
    have hcount : (accepted x.log).length + dropsFollowed x.log = x.log.length := by
      refine accepted_add_drops ?_
      intro p hp
      rw [hlast] at hp
      cases hp
      rfl
    have hpos : 0 < x.log.length := by
      obtain h0 | hpos := Nat.eq_zero_or_pos x.log.length
      · rw [List.length_eq_zero_iff.mp h0] at hlast
        cases hlast
      · exact hpos
    rw [List.getLast?_eq_getElem?] at hlast
    rw [hscan, hdrops, hcount, (h.numbered _ _ hlast).2 v a b p n c hev, BitVec.toNat_ofNat]
    congr 1
    omega

/-- A session that fills the smallest ring, a switch that is dropped, and the closing session, with the drains of the host. -/
def oneDrop : List Act := [.session 0 0, .switch 1 0 1, .drain 28, .session 2 5, .drain 28]

theorem telemetry_accounts_oneDrop :
    ∃ x, (St.init 29 fun _ => 0).run 0 oneDrop = x ∧ x.log.map Prod.snd = [true, false, true] ∧ droppedBetween x.log = 1 ∧
      (∃ fuel, parse x.drained fuel = some (accepted x.log, [])) ∧ (lossScan (accepted x.log)).1 = droppedBetween x.log ∧
      ∀ r v a b p n c, x.log.getLast? = some (r, true) → r.event = .session v a b p n c →
        ((accepted x.log).length + (lossScan (accepted x.log)).1) % 2 ^ 32 = n.toNat := by
  have hlog : ((St.init 29 fun _ => 0).run 0 oneDrop).log.map Prod.snd = [true, false, true] := by decide
  refine ⟨_, rfl, hlog, by decide, telemetry_accounts (by decide) (by decide) 0 (fun _ => 0) oneDrop rfl ?_ (by decide)⟩
  rintro l₁ l l₂ hl -
  have hlen := congrArg List.length hlog
  rw [hl, List.length_map, List.length_append, List.length_append] at hlen
  simp at hlen
  omega

section Overrun

variable {size : Nat} {x : St}

/-- The host has drained everything, and nothing was dropped. -/
structure Kept (size : Nat) (x : St) : Prop where
  inv : Inv size x
  empty : x.up.rdOff = x.up.wrOff
  all : ∀ p ∈ x.log, p.2 = true

theorem dropsBelow_of_all {log : List (Record × Bool)} (hall : ∀ p ∈ log, p.2 = true) : DropsBelow 65536 log := by
  rintro l₁ l l₂ hl hfalse
  cases l with
  | nil => simp
  | cons p l =>
    have hok := hall p (by simp [hl])
    rw [hfalse p (List.mem_cons_self ..)] at hok
    cases hok

theorem Kept.pair (h : Kept size x) (h29 : 29 ≤ size) (h31 : size ≤ 2 ^ 31) (arch : BitVec 8) (act : Act) {r : Record}
    (he : Emits x (x.step arch act) r) : Kept size (x.run arch [act, .drain 28]) ∧
    (x.run arch [act, .drain 28]).log = x.log ++ [(r, true)] := by
  have hlen := bytes_length_le r
  obtain ⟨q, hq, -⟩ := h.inv.stream
  obtain rfl : q = [] := hq.eq_nil.mp h.empty
  have hsize : x.up.size = size := h.inv.size_eq
  obtain ⟨-, hok, -, hold⟩ | ⟨hle, -⟩ := hq.write (hsize ▸ h31) r.bytes
  · have hlog : (x.run arch [act, .drain 28]).log = x.log ++ [(r, true)] := by
      rw [← hok, ← he.log]
      rfl
    refine ⟨⟨inv_run h29 h31 arch _ h.inv, ?_, ?_⟩, hlog⟩
    · rw [← he.up] at hold
      exact hold.drain_all (by simpa using hlen)
    · intro p hp
      rw [hlog] at hp
      obtain hp | hp := List.mem_append.mp hp
      · exact h.all p hp
      · rw [List.mem_singleton.mp hp]
  · rw [List.length_nil, hsize] at hle
    omega

def drainedSwitches (n : Nat) : List Act := (List.replicate n [Act.switch 0 0 0, .drain 28]).flatten

theorem Kept.switches (h29 : 29 ≤ size) (h31 : size ≤ 2 ^ 31) (arch : BitVec 8) (n : Nat) (h : Kept size x) :
    Kept size (x.run arch (drainedSwitches n)) ∧ (x.run arch (drainedSwitches n)).log.length = x.log.length + n := by
  induction n generalizing x with
  | zero => exact ⟨h, rfl⟩
  | succ n ih =>
    have he := ktrace_emits x (fun seq t => encodeSwitch seq t 0 0) (.switch 0 0) (fun _ _ => rfl) (by simp) 0
    have hpair := h.pair h29 h31 arch (.switch 0 0 0) he
    obtain ⟨hrest, hlen⟩ := ih hpair.1
    have hrun : x.run arch (drainedSwitches (n + 1)) = (x.run arch [.switch 0 0 0, .drain 28]).run arch (drainedSwitches n) := rfl
    rw [hrun]
    refine ⟨hrest, ?_⟩
    rw [hlen, hpair.2, List.length_append, List.length_singleton]
    omega

theorem kept_init (h29 : 29 ≤ size) (buffer : Nat → BitVec 8) : Kept size (St.init size buffer) :=
  ⟨inv_init h29 buffer, rfl, by simp [St.init]⟩

/-- So many switches, each drained, and a closing session. -/
def longTrace (n : Nat) : List Act := drainedSwitches n ++ [.session 0 0, .drain 28]

theorem longTrace_kept (n : Nat) {x : St} (hx : (St.init 29 fun _ => 0).run 0 (longTrace n) = x) :
    Kept 29 x ∧ x.log.length = n + 1 ∧ ∃ r v a b p m c, x.log.getLast? = some (r, true) ∧ r.event = .session v a b p m c := by
  obtain ⟨y, hy⟩ : ∃ y, (St.init 29 fun _ => 0).run 0 (drainedSwitches n) = y := ⟨_, rfl⟩
  have hsw := (kept_init (le_refl 29) fun _ => 0).switches (le_refl 29) (by decide) 0 n
  rw [hy] at hsw
  have hpair := hsw.1.pair (le_refl 29) (by decide) 0 (.session 0 0) (session_emits y 0 0 0)
  have hrun : x = y.run 0 [.session 0 0, .drain 28] := by
    rw [← hx, ← hy, longTrace, St.run, List.foldl_append]
    rfl
  rw [hrun]
  refine ⟨hpair.1, ?_, _, _, _, _, _, _, _, by rw [hpair.2, List.getLast?_concat], rfl⟩
  rw [hpair.2, List.length_append, hsw.2]
  simp [St.init]

theorem store_off {l : Bytes} {buffer : Nat → BitVec 8} {w : Nat} (hw : w < size) :
    (Up.store size l buffer w).2 = (w + l.length) % size := by
  induction l generalizing buffer w with
  | nil => rw [Up.store, List.length_nil, Nat.add_zero, Nat.mod_eq_of_lt hw]
  | cons b l ih =>
    have hnext := Lib.Wrapped.next_eq hw
    rw [Up.store, ih (hnext ▸ Nat.mod_lt _ (by omega)), hnext, Nat.mod_add_mod, List.length_cons]
    congr 1
    omega

/-- A ring so large that its offsets leave `uint32_t` when its size is added to one. -/
def largeSize : Nat := 11 * 200000000

theorem large_write {up : Up} {k : Nat} (hsize : up.size = largeSize) (hrd : up.rdOff = 0) (hwr : up.wrOff = 11 * k)
    (hk : k < 200000000) {l : Bytes} (hl : l.length = 11) : (up.writeRecordCh1 l).2 = true ∧
    (up.writeRecordCh1 l).1.size = largeSize ∧ (up.writeRecordCh1 l).1.rdOff = 0 ∧
      (up.writeRecordCh1 l).1.wrOff = 11 * (k + 1) % largeSize := by
  have hlarge : largeSize = 2200000000 := rfl
  have hroom : ¬ up.size - 1 - up.used < l.length := by
    unfold Up.used
    rw [hsize, hrd, hwr, hl, hlarge]
    -- the room is right while the sum stays in 32 bits, and beyond that it is counted too large
    obtain hin | hout := Nat.lt_or_ge (11 * k + 2200000000) (2 ^ 32)
    · have hsum : (11 * k + 2200000000 + (2 ^ 32 - 0)) % 2 ^ 32 = 11 * k + 2200000000 := by omega
      have hused : (11 * k + 2200000000) % 2200000000 = 11 * k := by omega
      rw [hsum, hused]
      omega
    · have hsum : (11 * k + 2200000000 + (2 ^ 32 - 0)) % 2 ^ 32 = 11 * k + 2200000000 - 2 ^ 32 := by omega
      have hused : (11 * k + 2200000000 - 2 ^ 32) % 2200000000 = 11 * k + 2200000000 - 2 ^ 32 := by omega
      rw [hsum, hused]
      omega
  unfold Up.writeRecordCh1
  simp only [hroom, if_false]
  refine ⟨trivial, hsize, hrd, ?_⟩
  rw [store_off (by omega), hl, hwr, hsize]
  congr 1

theorem large_switches (k : Nat) (hk : k ≤ 200000000) {x : St}
    (hx : (St.init largeSize fun _ => 0).run 0 (List.replicate k (.switch 0 0 0)) = x) :
    x.up.size = largeSize ∧ x.up.rdOff = 0 ∧ x.up.wrOff = 11 * k % largeSize ∧ x.drained = [] ∧ x.log.length = k ∧
      ∀ p ∈ x.log, p.2 = true := by
  induction k generalizing x with
  | zero =>
    subst hx
    exact ⟨rfl, rfl, rfl, rfl, rfl, by simp [St.run, St.init]⟩
  | succ k ih =>
    obtain ⟨y, hy⟩ : ∃ y, (St.init largeSize fun _ => 0).run 0 (List.replicate k (.switch 0 0 0)) = y := ⟨_, rfl⟩
    obtain ⟨hsize, hrd, hwr, hdr, hlen, hall⟩ := ih (by omega) hy
    have hrun : x = y.ktraceSwitch 0 0 0 := by
      rw [← hx, ← hy, List.replicate_succ', St.run, List.foldl_append]
      rfl
    have he := ktrace_emits y (fun seq t => encodeSwitch seq t 0 0) (.switch 0 0) (fun _ _ => rfl) (by simp) 0
    have hwr' : y.up.wrOff = 11 * k := by rw [hwr, Nat.mod_eq_of_lt (by unfold largeSize; omega)]
    obtain ⟨hok, hsize', hrd', hoff⟩ := large_write hsize hrd hwr' (by omega)
        (show (Record.mk (.switch 0 0) y.k.traceSeq 0).bytes.length = 11 from rfl)
    rw [hrun]
    refine ⟨?_, ?_, ?_, ?_, ?_, ?_⟩
    · exact (congrArg Up.size he.up).trans hsize'
    · exact (congrArg Up.rdOff he.up).trans hrd'
    · exact (congrArg Up.wrOff he.up).trans hoff
    · exact he.drained.trans hdr
    · exact (congrArg List.length he.log).trans (by rw [List.length_append, hlen, List.length_singleton])
    · intro p hp
      obtain hp | hp := List.mem_append.mp (he.log ▸ hp)
      · exact hall p hp
      · rw [List.mem_singleton.mp hp]
        exact hok

end Overrun

/-- The count a session carries wraps, and a ring beyond half of `uint32_t` loses what it took: after 2 ^ 32 records
none of which was dropped, the closing session says none was emitted, and of the switches that fill a ring of
`largeSize` bytes the host gets no byte. -/
theorem telemetry_miscounts :
    (∃ x, (St.init 29 fun _ => 0).run 0 (longTrace (2 ^ 32 - 1)) = x ∧ DropsBelow 65536 x.log ∧ x.up.rdOff = x.up.wrOff ∧
      ∃ r v a b p n c, x.log.getLast? = some (r, true) ∧ r.event = .session v a b p n c ∧
        (accepted x.log).length + (lossScan (accepted x.log)).1 ≠ n.toNat) ∧
    ∃ x, (St.init largeSize fun _ => 0).run 0 (List.replicate 200000000 (.switch 0 0 0)) = x ∧ DropsBelow 65536 x.log ∧
      x.up.rdOff = x.up.wrOff ∧ ∀ fuel, parse x.drained fuel ≠ some (accepted x.log, []) := by
  constructor
  · obtain ⟨n, hn⟩ : ∃ n, n = 2 ^ 32 - 1 := ⟨_, rfl⟩
    rw [← hn]
    obtain ⟨hkept, hlen, r, v, a, b, p, m, c, hlast, hev⟩ := longTrace_kept n rfl
    refine ⟨_, rfl, dropsBelow_of_all hkept.all, hkept.empty, r, v, a, b, p, m, c, hlast, hev, ?_⟩
    have hall : (accepted ((St.init 29 fun _ => 0).run 0 (longTrace n)).log).length = n + 1 := by
      rw [accepted, List.length_map, List.filter_eq_self.mpr hkept.all, hlen]
    have hm := m.isLt
    omega
  · obtain ⟨m, hm⟩ : ∃ m, m = 200000000 := ⟨_, rfl⟩
    rw [← hm]
    obtain ⟨-, hrd, hwr, hdr, hlen, hall⟩ := large_switches m (by omega) rfl
    refine ⟨_, rfl, dropsBelow_of_all hall, ?_, ?_⟩
    · rw [hrd, hwr, hm]
      rfl
    · intro fuel hparse
      rw [hdr] at hparse
      have hnil : parse [] fuel = some ([], []) := by cases fuel <;> rfl
      rw [hnil, Option.some.injEq, Prod.mk.injEq] at hparse
      have h0 := congrArg List.length hparse.1
      rw [accepted, List.length_map, List.filter_eq_self.mpr hall, hlen, List.length_nil] at h0
      omega

end KickOS.Trace
