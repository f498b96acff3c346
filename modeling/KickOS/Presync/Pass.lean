import KickOS.Presync.Record

/-! The locked sections of a call: the plan's notes, the mappings of the pass, the commit and the end.

Each leaves the blocks and the other threads' records alone, but for the commit, which drops records. -/

namespace KickOS
namespace Presync

variable {P : Pool} {n : Nat} {s s' t u : St P n} {i j : Fin n} {sp x : Span} {p : Nat}

/-! ### What a section of thread `i` leaves alone -/

structure Local (s t : St P n) (i : Fin n) : Prop where
  blocks : t.blocks = s.blocks
  frames : t.frames = s.frames
  names : t.names = s.names
  phase : t.phase = s.phase
  others : ∀ j, j ≠ i → t.recs j = s.recs j

theorem Local.refl (s : St P n) (i : Fin n) : Local s s i := ⟨rfl, rfl, rfl, rfl, fun _ _ => rfl⟩

theorem Local.trans (h : Local s t i) (h' : Local t u i) : Local s u i where
  blocks := h'.blocks.trans h.blocks
  frames := h'.frames.trans h.frames
  names := h'.names.trans h.names
  phase := h'.phase.trans h.phase
  others j hj := (h'.others j hj).trans (h.others j hj)

theorem Local.named (h : Local s t i) {sp : Span} (hn : Names s j sp) : Names t j sp := by
  obtain ⟨hpool, o, b, ho, hb, hsp⟩ := hn
  exact ⟨hpool, o, b, by rw [h.names]; exact ho, by rw [h.blocks]; exact hb, hsp⟩

theorem setRec_local (r : Record) : Local s (s.setRec i r) i :=
  ⟨rfl, rfl, rfl, rfl, fun _ hj => Function.update_of_ne hj _ _⟩

theorem note_local (e : Event n) : Local s (s.note e) i := ⟨rfl, rfl, rfl, rfl, fun _ _ => rfl⟩

@[simp] theorem setRec_self (r : Record) : (s.setRec i r).recs i = r := Function.update_self _ _ _

@[simp] theorem setRec_log (r : Record) : (s.setRec i r).log = s.log := rfl

/-- The events of `i` other than its completed edits. -/
def Mine (i : Fin n) (e : Event n) : Prop :=
  e = .planned i ∨ (∃ p, e = .synced i p) ∨ ∃ sp owing, e = .mapped i sp owing

theorem Mine.harmless {e : Event n} (h : Mine i e) (hj : j ≠ i) : Harmless P e j p := by
  refine ⟨?_, ?_⟩
  · rintro rfl
    rcases h with h | ⟨q, h⟩ | ⟨sp, o, h⟩
    · exact hj (Event.planned.inj h)
    · cases h
    · cases h
  · rintro k sp - rfl
    rcases h with h | ⟨q, h⟩ | ⟨sp, o, h⟩ <;> cases h

theorem Local.call_other (h : Local s t i) (hj : j ≠ i) (hc : Call s j)
    (hlog : t.log = s.log ∨ ∃ e, Mine i e ∧ t.log = e :: s.log) : Call t j := by
  refine hc.congr (by rw [h.others j hj]) (by rw [h.others j hj]; exact id) (by rw [h.phase])
    (fun sp _ hn => h.named hn) fun _ sp _ p _ hsync => ?_
  rcases hlog with hlog | ⟨e, he, hlog⟩
  · rw [hlog]
    exact hsync
  · rw [hlog]
    exact hsync.cons (he.harmless hj)

/-! ### The count of the live records -/

theorem counted_congr (h : Counted s) (hlive : ∀ j, (t.recs j).live = (s.recs j).live)
    (hcount : t.presyncLive = s.presyncLive) : Counted t := by
  have hset : liveSet t = liveSet s := by
    ext j
    rw [mem_liveSet, mem_liveSet, hlive]
  unfold Counted
  rw [hcount, hset]
  exact h

theorem setRec_counted (h : Counted s) {r : Record} (hr : r.live = (s.recs i).live) : Counted (s.setRec i r) := by
  refine counted_congr h (fun j => ?_) rfl
  by_cases hj : j = i
  · subst hj
    rw [setRec_self, hr]
  · rw [(setRec_local r).others j hj]

theorem presyncDrop_local : Local s (s.presyncDrop i) i := by
  unfold St.presyncDrop
  split
  · exact ⟨rfl, rfl, rfl, rfl, fun _ hj => Function.update_of_ne hj _ _⟩
  · exact Local.refl s i

@[simp] theorem presyncDrop_log : (s.presyncDrop i).log = s.log := by
  unfold St.presyncDrop
  split <;> rfl

@[simp] theorem presyncDrop_self : (s.presyncDrop i).recs i = { s.recs i with live := false } := by
  unfold St.presyncDrop
  split
  · exact Function.update_self _ _ _
  · rename_i hlive
    rw [Bool.not_eq_true] at hlive
    rw [← hlive]

theorem presyncDrop_counted (h : Counted s) : Counted (s.presyncDrop i) := by
  by_cases hlive : (s.recs i).live = true
  · have hset : liveSet (s.presyncDrop i) = (liveSet s).erase i := by
      ext j
      rw [Finset.mem_erase, mem_liveSet, mem_liveSet]
      by_cases hj : j = i
      · subst hj
        simp
      · rw [presyncDrop_local.others j hj]
        simp [hj]
    unfold Counted
    rw [hset, Finset.card_erase_of_mem (mem_liveSet.mpr hlive), ← h, St.presyncDrop, if_pos hlive]
  · rw [St.presyncDrop, if_neg hlive]
    exact h

theorem counted_insert (h : Counted s) (hoff : i ∉ liveSet s) (hon : (t.recs i).live = true)
    (hrest : ∀ j, j ≠ i → (t.recs j).live = (s.recs j).live) (hcount : t.presyncLive = s.presyncLive + 1) :
    Counted t := by
  have hset : liveSet t = insert i (liveSet s) := by
    ext j
    rw [Finset.mem_insert, mem_liveSet, mem_liveSet]
    by_cases hj : j = i
    · subst hj
      simp [hon]
    · rw [hrest j hj]
      simp [hj]
  unfold Counted
  rw [hcount, hset, Finset.card_insert_of_notMem hoff, h]

/-! ### The plan -/

theorem presyncNote_does (hs : s.presyncNote i sp = some t) (hc : Counted s) :
    Local s t i ∧ t.log = s.log ∧ t.maps = s.maps ∧ Counted t ∧
      ((t.recs i).noted = (s.recs i).noted ∨
        (presyncPoolPages P sp ≠ 0 ∧ (t.recs i).noted = (s.recs i).noted ++ [sp])) := by
  unfold St.presyncNote at hs
  split at hs
  · obtain rfl := Option.some.inj hs
    exact ⟨Local.refl s i, rfl, rfl, hc, Or.inl rfl⟩
  · rename_i hpool
    split at hs
    · cases hs
    · rename_i noted hadd
      have hnoted : noted = (s.recs i).noted ++ [sp] := by
        unfold presyncAdd at hadd
        split at hadd
        · cases hadd
        · exact (Option.some.inj hadd).symm
      subst hnoted
      dsimp only at hs
      split at hs
      · rename_i hlive
        obtain rfl := Option.some.inj hs
        exact ⟨setRec_local _, rfl, rfl, setRec_counted hc hlive.symm, Or.inr ⟨hpool, by rw [setRec_self]⟩⟩
      · rename_i hlive
        obtain rfl := Option.some.inj hs
        refine ⟨⟨rfl, rfl, rfl, rfl, fun _ hj => Function.update_of_ne hj _ _⟩, rfl, rfl, ?_,
          Or.inr ⟨hpool, by simp [St.setRec]⟩⟩
        refine counted_insert hc (by simpa using hlive) (by simp [St.setRec]) (fun j hj => ?_) rfl
        exact congrArg Record.live (Function.update_of_ne hj _ _)

theorem noteAll_does {retypes admits : Nat → Bool} : ∀ {ws : List Want} {s : St P n},
    St.noteAll i retypes admits ws s = some t → Counted s → (∀ sp ∈ (s.recs i).noted, Names s i sp) →
      Local s t i ∧ t.log = s.log ∧ t.maps = s.maps ∧ Counted t ∧ ∀ sp ∈ (t.recs i).noted, Names t i sp
  | [], s, hs, hc, hn => by
    obtain rfl := Option.some.inj hs
    exact ⟨Local.refl s i, rfl, rfl, hc, hn⟩
  | w :: ws, s, hs, hc, hn => by
    unfold St.noteAll at hs
    split at hs
    · exact noteAll_does hs hc hn
    · rename_i b hb
      split at hs
      · rename_i hmem
        obtain ⟨m, hm, hs⟩ := Option.bind_eq_some_iff.mp hs
        obtain ⟨hl, hlog, hmaps, hcm, hnoted⟩ := presyncNote_does hm hc
        have hnm : ∀ sp ∈ (m.recs i).noted, Names m i sp := by
          intro sp hsp
          rcases hnoted with heq | ⟨hpool, heq⟩
          · exact hl.named (hn sp (heq ▸ hsp))
          · rw [heq] at hsp
            rcases List.mem_append.mp hsp with hsp | hsp
            · exact hl.named (hn sp hsp)
            · obtain rfl := List.mem_singleton.mp hsp
              exact hl.named ⟨hpool, w.block, b, hmem.1, hb, rfl⟩
        obtain ⟨hl', hlog', hmaps', hct, hnt⟩ := noteAll_does hs hcm hnm
        exact ⟨hl.trans hl', hlog'.trans hlog, hmaps'.trans hmaps, hct, hnt⟩
      · exact noteAll_does hs hc hn

/-! ### The mappings of the pass -/

/-- The record is marked and added to, and nothing in it is noted or dropped. -/
structure Marks (s t : St P n) (i : Fin n) : Prop where
  frame : Local s t i
  noted : (t.recs i).noted = (s.recs i).noted
  live : (t.recs i).live = (s.recs i).live
  count : t.presyncLive = s.presyncLive
  maps : t.maps = s.maps
  log : t.log = s.log

theorem Marks.refl (s : St P n) (i : Fin n) : Marks s s i := ⟨Local.refl s i, rfl, rfl, rfl, rfl, rfl⟩

theorem Marks.trans (h : Marks s t i) (h' : Marks t u i) : Marks s u i where
  frame := h.frame.trans h'.frame
  noted := h'.noted.trans h.noted
  live := h'.live.trans h.live
  count := h'.count.trans h.count
  maps := h'.maps.trans h.maps
  log := h'.log.trans h.log

theorem setRec_marks {r : Record} (hn : r.noted = (s.recs i).noted) (hl : r.live = (s.recs i).live) :
    Marks s (s.setRec i r) i :=
  ⟨setRec_local r, by rw [setRec_self, hn], by rw [setRec_self, hl], rfl, rfl, rfl⟩

theorem addEdit_marks (hs : s.addEdit i sp = some t) : Marks s t i := by
  unfold St.addEdit at hs
  split at hs
  · obtain rfl := Option.some.inj hs
    exact Marks.refl s i
  · split at hs
    · obtain ⟨edits, -, rfl⟩ := Option.map_eq_some_iff.mp hs
      exact setRec_marks rfl rfl
    · cases hs

theorem Marks.counted (h : Marks s t i) (hc : Counted s) : Counted t := by
  refine counted_congr hc (fun j => ?_) h.count
  by_cases hj : j = i
  · subst hj
    exact h.live
  · rw [h.frame.others j hj]

theorem Marks.inv (h : Marks s t i) (hi : Inv s) : Inv t where
  kept := hi.kept.congr h.frame.blocks h.frame.frames h.frame.names
  counted := h.counted hi.counted
  call j := by
    by_cases hj : j = i
    · subst hj
      refine (hi.call j).congr h.noted (by rw [h.live]; exact id) (by rw [h.frame.phase])
        (fun sp _ hn => h.frame.named hn) fun _ sp _ p _ hsync => ?_
      rw [h.log]
      exact hsync
    · exact h.frame.call_other hj (hi.call j) (Or.inl h.log)
  sound := by
    rw [h.log]
    exact hi.sound

theorem syncFrames_does : Marks s (s.syncFrames i sp).1 i ∧ ((s.syncFrames i sp).2 = true → presyncPoolPages P sp ≠ 0 →
    (s.recs i).live = true ∧ presyncCovers P (s.recs i).noted sp = true) := by
  unfold St.syncFrames
  split
  · rename_i h0
    exact ⟨Marks.refl s i, fun _ hpool => absurd h0 hpool⟩
  · split
    · rename_i hex
      exact ⟨Marks.refl s i, fun _ _ => hex⟩
    · exact ⟨setRec_marks rfl rfl, fun h => by cases h⟩

theorem excused_does (s : St P n) (i : Fin n) (r : Nat → Bool) (w : Want) (sp : Span) : Marks s (s.excused i r w sp).1 i ∧
    ((s.excused i r w sp).2 = true → s.syncs r w = true → presyncPoolPages P sp ≠ 0 →
      (s.recs i).live = true ∧ presyncCovers P (s.recs i).noted sp = true) := by
  unfold St.excused
  split
  · exact ⟨syncFrames_does.1, fun hok _ => syncFrames_does.2 hok⟩
  · rename_i howe
    exact ⟨Marks.refl s i, fun _ ho => absurd ho howe⟩

theorem covered_synced (h : Inv s) {call : Asks P} (hphase : s.phase i = .sync call []) {b : Block P}
    (hlive : (s.recs i).live = true) (hcov : presyncCovers P (s.recs i).noted b.span = true)
    (hp : p ∈ b.span.granules P) : Synced P s.log i p := by
  obtain ⟨x, hx, hcov⟩ := List.any_eq_true.mp hcov
  obtain ⟨hlo, hhi⟩ := of_decide_eq_true hcov
  obtain ⟨-, o, c, -, -, hspan⟩ := (h.call i).names x hx
  have hpx : p ∈ x.granules P := granules_of_covers (hspan ▸ c.aligned) b.aligned hlo hhi hp
  have ha := (h.call i).ahead
  rw [hphase] at ha
  rcases ha.2 hlive x hx p hpx with hmem | hsync
  · exact absurd hmem List.not_mem_nil
  · exact hsync

/-- A mapping of the pass: nothing but marks, or a mapping of the holder's, sound where it owes a sync. -/
theorem mapOne_does (h : Inv s) {call : Asks P} (hphase : s.phase i = .sync call []) {holder : Nat} {ans : Answers}
    {w : Want} {ok : Bool} (hs : s.mapOne i holder ans w = some (t, ok)) :
    Inv t ∧ Local s t i ∧ (t.maps = s.maps ∨ ∃ m, m.holder = holder ∧ t.maps = m :: s.maps) := by
  unfold St.mapOne at hs
  split at hs
  · obtain ⟨rfl, -⟩ := Prod.mk.inj (Option.some.inj hs)
    exact ⟨h, Local.refl s i, Or.inl rfl⟩
  · rename_i b hb
    split at hs
    · obtain ⟨rfl, -⟩ := Prod.mk.inj (Option.some.inj hs)
      exact ⟨h, Local.refl s i, Or.inl rfl⟩
    · obtain ⟨hmk, hexc⟩ := excused_does s i ans.retypes w b.span
      dsimp only at hs
      split at hs
      · obtain ⟨rfl, -⟩ := Prod.mk.inj (Option.some.inj hs)
        exact ⟨hmk.inv h, hmk.frame, Or.inl hmk.maps⟩
      · rename_i hgo
        obtain ⟨e, he, hs⟩ := Option.map_eq_some_iff.mp hs
        obtain ⟨rfl, -⟩ := Prod.mk.inj hs
        have hme := hmk.trans (addEdit_marks he)
        have hexcused : (s.excused i ans.retypes w b.span).2 = true := by
          by_contra hno
          exact hgo (by simp [hno])
        have hie := hme.inv h
        refine ⟨⟨hie.kept.congr rfl rfl rfl, hie.counted, fun j => ?_, ?_⟩,
          hme.frame.trans ⟨rfl, rfl, rfl, rfl, fun _ _ => rfl⟩, Or.inr ⟨_, rfl, by rw [← hme.maps]⟩⟩
        · by_cases hj : j = i
          · subst hj
            exact (hie.call j).congr rfl id rfl (fun _ _ hn => hn) fun _ _ _ p _ hsync =>
              hsync.cons ⟨by simp, by simp⟩
          · exact (hie.call j).congr rfl id rfl (fun _ _ hn => hn) fun _ _ _ p _ hsync =>
              hsync.cons ⟨by simp, by simp⟩
        · refine hie.sound.cons fun k y hy hpool p hp => ?_
          injection hy with hk hy howe
          subst hk hy
          obtain ⟨hlive, hcov⟩ := hexc hexcused howe hpool
          rw [hme.log]
          exact covered_synced h hphase hlive hcov hp

theorem mapAll_does {holder : Nat} {ans : Answers} {call : Asks P} : ∀ {ws : List Want} {s : St P n} {ok : Bool},
    Inv s → s.phase i = .sync call [] → St.mapAll i holder ans ws s = some (t, ok) →
      Inv t ∧ Local s t i ∧
        t.maps.filter (fun m => m.holder ≠ holder) = s.maps.filter (fun m => m.holder ≠ holder)
  | [], s, ok, h, _, hs => by
    obtain ⟨rfl, -⟩ := Prod.mk.inj (Option.some.inj hs)
    exact ⟨h, Local.refl s i, rfl⟩
  | w :: ws, s, ok, h, hphase, hs => by
    have hfilter : ∀ {m : St P n}, (m.maps = s.maps ∨ ∃ x : Mapping, x.holder = holder ∧ m.maps = x :: s.maps) →
        m.maps.filter (fun m => m.holder ≠ holder) = s.maps.filter (fun m => m.holder ≠ holder) := by
      rintro m (heq | ⟨x, hx, heq⟩)
      · rw [heq]
      · rw [heq, List.filter_cons_of_neg (by simp [hx])]
    unfold St.mapAll at hs
    split at hs
    · cases hs
    · rename_i m hm
      obtain ⟨rfl, -⟩ := Prod.mk.inj (Option.some.inj hs)
      obtain ⟨him, hlm, hmaps⟩ := mapOne_does h hphase hm
      exact ⟨him, hlm, hfilter hmaps⟩
    · rename_i m hm
      obtain ⟨him, hlm, hmaps⟩ := mapOne_does h hphase hm
      obtain ⟨hit, hlt, hmt⟩ := mapAll_does him (by rw [hlm.phase]; exact hphase) hs
      exact ⟨hit, hlm.trans hlt, hmt.trans (hfilter hmaps)⟩

/-! ### The commit -/

theorem presyncVoid_eq (hc : Counted s) (i : Fin n) (sp : Span) : s.presyncVoid i sp =
    { s with
      recs := fun j => if s.droppedBy i sp j = true then { s.recs j with live := false } else s.recs j
      presyncLive := s.presyncLive - (Finset.univ.filter fun j => s.droppedBy i sp j = true).card } := by
  unfold St.presyncVoid
  split
  · rename_i hzero
    have hdead : ∀ j, s.droppedBy i sp j = false := by
      intro j
      have hnone := Finset.card_eq_zero.mp (hc.symm.trans hzero)
      have hj : (s.recs j).live = false := by
        by_contra hlive
        have hmem : j ∈ liveSet s := by simpa using hlive
        rw [hnone] at hmem
        exact absurd hmem (Finset.notMem_empty j)
      simp [St.droppedBy, hj]
    simp [hdead]
  · rfl

theorem presyncVoid_counted (hc : Counted s) (i : Fin n) (sp : Span) : Counted (s.presyncVoid i sp) := by
  have hsub : (Finset.univ.filter fun j => s.droppedBy i sp j = true) ⊆ liveSet s := by
    intro j hj
    simp only [Finset.mem_filter, Finset.mem_univ, true_and, St.droppedBy, Bool.and_eq_true] at hj
    exact mem_liveSet.mpr hj.1.2
  have hset : liveSet (s.presyncVoid i sp) = liveSet s \ Finset.univ.filter fun j => s.droppedBy i sp j = true := by
    ext j
    rw [mem_liveSet, Finset.mem_sdiff, mem_liveSet, presyncVoid_eq hc i sp]
    by_cases hd : s.droppedBy i sp j = true <;> simp [hd]
  unfold Counted
  rw [hset, Finset.card_sdiff_of_subset hsub, ← hc, presyncVoid_eq hc i sp]

theorem void_inv (h : Inv s) (i : Fin n) (sp : Span) : Inv ((s.presyncVoid i sp).note (.edited i sp)) := by
  have hcount := presyncVoid_counted h.counted i sp
  have heq := presyncVoid_eq h.counted i sp
  refine ⟨?_, hcount, fun j => ?_, ?_⟩
  · rw [heq]
    exact h.kept.congr rfl rfl rfl
  · rw [heq]
    refine (h.call j).congr ?_ ?_ rfl (fun _ _ hn => hn) fun hl x hx p hp hsync => hsync.cons ⟨by simp, ?_⟩
    · dsimp only [St.note]
      split <;> rfl
    · dsimp only [St.note]
      split
      · exact fun hl => by cases hl
      · exact id
    · rintro k y hk hy hpy
      obtain ⟨rfl, rfl⟩ := Event.edited.inj hy
      have hmeets := meets_of_granule hx hp hpy
      dsimp only [St.note] at hl
      split at hl
      · cases hl
      · rename_i hd
        exact hd (by simp [St.droppedBy, hl, hmeets, hk.symm])
  · rw [heq]
    exact h.sound.cons_other fun _ _ => by simp

theorem presyncVoid_phase : (s.presyncVoid i sp).phase = s.phase := by
  unfold St.presyncVoid
  split <;> rfl

theorem voidAll_does : ∀ (sps : List Span) {s : St P n}, Inv s →
    Inv (St.voidAll i sps s) ∧ (St.voidAll i sps s).phase = s.phase
  | [], s, h => ⟨h, rfl⟩
  | sp :: sps, s, h => by
    obtain ⟨hi, hp⟩ := voidAll_does sps (void_inv h i sp)
    exact ⟨hi, hp.trans presyncVoid_phase⟩

theorem presyncCommit_does (h : Inv s) : Inv (s.presyncCommit i) ∧ (s.presyncCommit i).phase = s.phase := by
  obtain ⟨hi, hp⟩ := voidAll_does (i := i) (s.recs i).edits h
  refine ⟨Marks.inv (i := i) ?_ hi, hp⟩
  exact setRec_marks rfl rfl

end Presync
end KickOS
