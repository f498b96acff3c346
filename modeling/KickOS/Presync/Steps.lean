import KickOS.Presync.Pass

/-! Every step keeps the records true, in whatever order the calls take theirs. -/

namespace KickOS
namespace Presync
open Function (update update_of_ne update_self)

variable {P : Pool} {n : Nat} {s s' t u : St P n} {i j : Fin n} {sp x : Span} {p : Nat} {a : Act P n}

/-! ### The steps -/

theorem body_does (h : Inv s) {call : Asks P} (hphase : s.phase i = .sync call []) {holder : Nat} {ans : Answers}
    (hs : s.body i holder ans call.1 = some t) : Inv t ∧ t.phase = s.phase := by
  unfold St.body at hs
  split at hs
  · cases hs
    exact ⟨Marks.inv (setRec_marks (s := s) (i := i) rfl rfl) h, rfl⟩
  · split at hs
    · cases hs
    · rename_i m ok hm
      obtain ⟨him, hlm, -⟩ := mapAll_does h hphase hm
      split at hs
      · cases hs
        obtain ⟨hi, hp⟩ := presyncCommit_does (i := i) him
        exact ⟨hi, hp.trans hlm.phase⟩
      · cases hs
        exact ⟨⟨him.kept.congr rfl rfl rfl, him.counted, fun j => (him.call j).congr rfl id rfl (fun _ _ hn => hn)
          fun _ _ _ _ _ hsync => hsync, him.sound⟩, hlm.phase⟩

theorem setPhase_self (q : Phase P) : (s.setPhase i q).phase i = q := update_self _ _ _

theorem Inv.set (h : Inv s) (hl : Local s t i) (hc : Counted t) {q : Phase P}
    (hlog : t.log = s.log ∨ ∃ e, Mine i e ∧ t.log = e :: s.log) (hsound : Sound P t.log)
    (hnames : ∀ sp ∈ (t.recs i).noted, Names t i sp) (hahead : Ahead t i q) : Inv (t.setPhase i q) where
  kept := h.kept.congr hl.blocks hl.frames hl.names
  counted := hc
  call j := by
    by_cases hj : j = i
    · subst hj
      refine ⟨hnames, ?_⟩
      rw [setPhase_self]
      cases q <;> exact hahead
    · refine (hl.call_other hj (h.call j) hlog).congr rfl id ?_ (fun _ _ hn => hn) fun _ _ _ _ _ hsync => hsync
      exact update_of_ne hj _ _
  sound := hsound

theorem plan_local (h : Inv s) {call : Asks P} {retypes admits : Nat → Bool}
    (hs : St.noteAll i retypes admits call.1 ((s.presyncBegin i).note (.planned i)) = some t) :
    Local s t i ∧ t.log = .planned i :: s.log ∧ Counted t ∧ ∀ sp ∈ (t.recs i).noted, Names t i sp := by
  have hbegin : Local s ((s.presyncBegin i).note (.planned i)) i :=
    (presyncDrop_local.trans (setRec_local _)).trans (note_local _)
  have hcount : Counted ((s.presyncBegin i).note (.planned i)) :=
    setRec_counted (presyncDrop_counted h.counted) rfl
  have hnoted : (((s.presyncBegin i).note (.planned i)).recs i).noted = [] := by
    simp [St.presyncBegin, St.note]
  obtain ⟨hl, hlog, -, hc, hn⟩ := noteAll_does hs hcount (by rw [hnoted]; exact fun _ hsp => absurd hsp List.not_mem_nil)
  refine ⟨hbegin.trans hl, ?_, hc, hn⟩
  rw [hlog]
  exact congrArg _ presyncDrop_log

theorem plan_inv (h : Inv s) {call : Asks P} {retypes admits : Nat → Bool}
    (hs : St.noteAll i retypes admits call.1 ((s.presyncBegin i).note (.planned i)) = some t) :
    Inv (t.setPhase i (.sync call ((t.recs i).noted.flatMap (Span.granules P)))) := by
  obtain ⟨hl, hlog, hc, hn⟩ := plan_local h hs
  refine h.set hl hc (Or.inr ⟨_, Or.inl rfl, hlog⟩) ?_ hn ?_
  · rw [hlog]
    exact h.sound.cons_other fun _ _ => by simp
  · refine ⟨fun p hp => ?_, fun _ sp hsp p hp => Or.inl ?_⟩
    · obtain ⟨sp, hsp, hp⟩ := List.mem_flatMap.mp hp
      exact ⟨sp, hsp, hp⟩
    · exact List.mem_flatMap.mpr ⟨sp, hsp, hp⟩

theorem look_found (h : Inv s) {call : Asks P} {todo : List Nat} (hphase : s.phase i = .sync call (p :: todo)) :
    s.frames p = true := by
  have ha := (h.call i).ahead
  rw [hphase] at ha
  obtain ⟨sp, hsp, hp⟩ := ha.1 p List.mem_cons_self
  exact ((h.call i).names sp hsp).allocated h.kept hp

theorem clean_inv (h : Inv s) {call : Asks P} {todo : List Nat} (hphase : s.phase i = .found call p todo) :
    Inv ((s.note (.synced i p)).setPhase i (.sync call todo)) := by
  have ha := (h.call i).ahead
  rw [hphase] at ha
  refine h.set (note_local _) h.counted (Or.inr ⟨_, Or.inr (Or.inl ⟨p, rfl⟩), rfl⟩)
    (h.sound.cons_other fun _ _ => by simp) (h.call i).names ⟨fun q hq => ?_, fun hl sp hsp q hq => ?_⟩
  · exact ha.1 q (List.mem_cons_of_mem _ hq)
  · rcases ha.2 hl sp hsp q hq with hmem | hsync
    · rcases List.mem_cons.mp hmem with rfl | hmem
      · exact Or.inr (synced_now s.log)
      · exact Or.inl hmem
    · exact Or.inr (hsync.cons ⟨by simp, by simp⟩)

theorem end_inv (h : Inv s) {r : Record} (hn : r.noted = []) (hl : r.live = false) {q : Phase P}
    (hq : q = .user ∨ ∃ call, q = .again call) : Inv (((s.presyncDrop i).setRec i r).setPhase i q) := by
  refine h.set (presyncDrop_local.trans (setRec_local _)) (setRec_counted (presyncDrop_counted h.counted) ?_)
    (Or.inl presyncDrop_log) ?_ ?_ ?_
  · rw [hl, presyncDrop_self]
  · rw [setRec_log, presyncDrop_log]
    exact h.sound
  · rw [setRec_self, hn]
    exact fun _ hsp => absurd hsp List.not_mem_nil
  · rcases hq with rfl | ⟨call, rfl⟩
    · exact ⟨by rw [setRec_self, hn], by rw [setRec_self, hl]⟩
    · exact ⟨by rw [setRec_self, hn], by rw [setRec_self, hl]⟩

/-! ### Blocks made, named and freed -/

theorem Inv.keep (h : Inv s) (hk : Kept t) (hrecs : t.recs = s.recs) (hcount : t.presyncLive = s.presyncLive)
    (hphase : t.phase = s.phase) (hlog : t.log = s.log)
    (hnames : ∀ i sp, sp ∈ (s.recs i).noted → Names s i sp → Names t i sp) : Inv t where
  kept := hk
  counted := counted_congr h.counted (fun j => by rw [hrecs]) hcount
  call j := by
    refine (h.call j).congr (by rw [hrecs]) (by rw [hrecs]; exact id) (by rw [hphase]) (hnames j)
      fun _ _ _ _ _ hsync => ?_
    rw [hlog]
    exact hsync
  sound := by
    rw [hlog]
    exact h.sound

theorem make_kept (h : Kept s) {o : Nat} {b : Block P} (ho : s.blocks o = none)
    (hfree : ∀ p ∈ b.frames, s.frames p = false) : Kept { s with
        blocks := update s.blocks o (some b)
        owed := update s.owed o false
        frames := fun p => decide (p ∈ b.frames) || s.frames p
        names := update s.names i (o :: s.names i) } := by
  have hold : ∀ o' b', o' ≠ o → update s.blocks o (some b) o' = some b' → s.blocks o' = some b' := by
    intro o' b' hne hb
    rw [← hb, update_of_ne hne]
  have hnew : ∀ b', update s.blocks o (some b) o = some b' → b = b' := by
    intro b' hb
    rw [update_self] at hb
    exact Option.some.inj hb
  have hfresh : ∀ o' b', s.blocks o' = some b' → ∀ p ∈ b'.frames, p ∉ b.frames := by
    intro o' b' hb p hp hpb
    exact Bool.false_ne_true ((hfree p hpb).symm.trans (h.alloc o' b' hb p hp))
  have hheld : ∀ o', (∃ b', s.blocks o' = some b') → ∃ b', update s.blocks o (some b) o' = some b' := by
    rintro o' ⟨b', hb⟩
    by_cases hne : o' = o
    · subst hne
      exact ⟨b, update_self _ _ _⟩
    · exact ⟨b', by rw [update_of_ne hne, hb]⟩
  refine ⟨?_, ?_, ?_⟩
  · intro j o' ho'
    dsimp only at ho' ⊢
    by_cases hj : j = i
    · subst hj
      rw [update_self] at ho'
      rcases List.mem_cons.mp ho' with rfl | ho'
      · exact ⟨b, update_self _ _ _⟩
      · exact hheld o' (h.held j o' ho')
    · rw [update_of_ne hj] at ho'
      exact hheld o' (h.held j o' ho')
  · intro o' b' hb p hp
    dsimp only at hb ⊢
    by_cases hne : o' = o
    · subst hne
      obtain rfl := hnew b' hb
      simp [hp]
    · simp [h.alloc o' b' (hold o' b' hne hb) p hp]
  · intro o₁ o₂ b₁ b₂ hne hb₁ hb₂ p hp
    dsimp only at hb₁ hb₂
    by_cases h₁ : o₁ = o
    · subst h₁
      obtain rfl := hnew b₁ hb₁
      exact fun hp₂ => hfresh o₂ b₂ (hold o₂ b₂ hne.symm hb₂) p hp₂ hp
    · by_cases h₂ : o₂ = o
      · subst h₂
        obtain rfl := hnew b₂ hb₂
        exact hfresh o₁ b₁ (hold o₁ b₁ h₁ hb₁) p hp
      · exact h.apart o₁ o₂ b₁ b₂ hne (hold o₁ b₁ h₁ hb₁) (hold o₂ b₂ h₂ hb₂) p hp

theorem free_kept (h : Kept s) {o : Nat} {b : Block P} (ho : s.blocks o = some b) (hnone : ∀ i, o ∉ s.names i) :
    Kept { s with
        blocks := update s.blocks o none
        frames := fun p => !decide (p ∈ b.frames) && s.frames p } := by
  have hold : ∀ o' b', update s.blocks o none o' = some b' → o' ≠ o ∧ s.blocks o' = some b' := by
    intro o' b' hb
    by_cases hne : o' = o
    · subst hne
      rw [update_self] at hb
      cases hb
    · rw [update_of_ne hne] at hb
      exact ⟨hne, hb⟩
  refine ⟨?_, ?_, ?_⟩
  · intro j o' ho'
    obtain ⟨b', hb⟩ := h.held j o' ho'
    have hne : o' ≠ o := fun heq => hnone j (heq ▸ ho')
    exact ⟨b', by dsimp only; rw [update_of_ne hne, hb]⟩
  · intro o' b' hb p hp
    obtain ⟨hne, hb⟩ := hold o' b' hb
    have hp' : p ∉ b.frames := h.apart o' o b' b hne hb ho p hp
    simp [hp', h.alloc o' b' hb p hp]
  · intro o₁ o₂ b₁ b₂ hne hb₁ hb₂
    exact h.apart o₁ o₂ b₁ b₂ hne (hold o₁ b₁ hb₁).2 (hold o₂ b₂ hb₂).2

theorem names_kept (h : Kept s) {l : List Nat} {c : Fin n → Bool} (hl : ∀ o ∈ l, ∃ b, s.blocks o = some b) :
    Kept { s with names := update s.names i l, cancelled := c } := by
  refine ⟨?_, h.alloc, h.apart⟩
  intro j o ho
  dsimp only at ho
  by_cases hj : j = i
  · subst hj
    rw [update_self] at ho
    exact hl o ho
  · rw [update_of_ne hj] at ho
    exact h.held j o ho

theorem mem_names_cons {o o' : Nat} (ho : o' ∈ s.names j) : o' ∈ update s.names i (o :: s.names i) j := by
  by_cases hj : j = i
  · subst hj
    rw [update_self]
    exact List.mem_cons_of_mem _ ho
  · rwa [update_of_ne hj]

theorem inv_plan {call : Asks P} {retypes admits : Nat → Bool} (h : Inv s)
    (hs : s.step (.plan i call retypes admits) = some s') : Inv s' := by
  dsimp only [St.step] at hs
  split at hs
  · obtain ⟨t, ht, rfl⟩ := Option.map_eq_some_iff.mp hs
    exact plan_inv h ht
  · cases hs

theorem inv_look (h : Inv s) (hs : s.step (.look i) = some s') : Inv s' := by
  dsimp only [St.step] at hs
  split at hs
  · rename_i call p todo hphase
    rw [look_found h hphase, if_pos rfl] at hs
    cases hs
    have ha := (h.call i).ahead
    rw [hphase] at ha
    exact h.set (Local.refl s i) h.counted (Or.inl rfl) h.sound (h.call i).names ha
  · cases hs

theorem inv_clean (h : Inv s) (hs : s.step (.clean i) = some s') : Inv s' := by
  dsimp only [St.step] at hs
  split at hs
  · rename_i call p todo hphase
    cases hs
    exact clean_inv h hphase
  · cases hs

theorem inv_pass {holder : Nat} {ans : Answers} (h : Inv s) (hs : s.step (.pass i holder ans) = some s') : Inv s' := by
  dsimp only [St.step] at hs
  split at hs
  · rename_i call hphase
    split at hs
    · obtain ⟨t, ht, rfl⟩ := Option.map_eq_some_iff.mp hs
      obtain ⟨hi, -⟩ := body_does h hphase ht
      exact hi.set (Local.refl t i) hi.counted (Or.inl rfl) hi.sound (hi.call i).names trivial
    · cases hs
  · cases hs

theorem inv_finish (h : Inv s) (hs : s.step (.finish i) = some s') : Inv s' := by
  dsimp only [St.step] at hs
  split at hs
  · rename_i call hphase
    split at hs
    · cases hs
      exact end_inv h rfl (by rw [presyncDrop_self]) (Or.inr ⟨call, rfl⟩)
    · cases hs
      exact end_inv h rfl (by rw [presyncDrop_self]) (Or.inl rfl)
  · cases hs

theorem inv_exit (h : Inv s) (hs : s.step (.exit i) = some s') : Inv s' := by
  dsimp only [St.step] at hs
  split at hs
  · cases hs
    have hi : Inv ((s.presyncExit i).setPhase i .user) := end_inv h rfl rfl (Or.inl rfl)
    have hnames : (s.presyncExit i).names = s.names := (presyncDrop_local (s := s) (i := i)).names
    rw [← hnames]
    refine hi.keep (names_kept hi.kept fun _ ho => absurd ho List.not_mem_nil) rfl rfl rfl rfl
      fun j sp hsp hn => ?_
    by_cases hj : j = i
    · subst hj
      have hnil : (((s.presyncExit j).setPhase j .user).recs j).noted = [] :=
        congrArg Record.noted (setRec_self Record.fresh)
      rw [hnil] at hsp
      exact absurd hsp List.not_mem_nil
    · obtain ⟨hpool, o, b, ho, hb⟩ := hn
      exact ⟨hpool, o, b, by dsimp only; rw [update_of_ne hj]; exact ho, hb⟩
  · cases hs

theorem inv_make {o : Nat} {b : Block P} (h : Inv s) (hs : s.step (.make i o b) = some s') : Inv s' := by
  dsimp only [St.step] at hs
  split at hs
  · rename_i hfree
    cases hs
    refine h.keep (make_kept h.kept hfree.1 hfree.2) rfl rfl rfl rfl fun j sp _ hn => ?_
    obtain ⟨hpool, o', b', ho', hb', hsp⟩ := hn
    have hne : o' ≠ o := by
      rintro rfl
      rw [hfree.1] at hb'
      cases hb'
    refine ⟨hpool, o', b', ?_, by dsimp only; rw [update_of_ne hne, hb'], hsp⟩
    exact mem_names_cons ho'
  · cases hs

theorem inv_name {o : Nat} (h : Inv s) (hs : s.step (.name i o) = some s') : Inv s' := by
  dsimp only [St.step] at hs
  split at hs
  · rename_i ho
    cases hs
    have hk : Kept { s with names := update s.names i (o :: s.names i), cancelled := s.cancelled } := by
      refine names_kept h.kept fun o' ho' => ?_
      rcases List.mem_cons.mp ho' with rfl | ho'
      · exact Option.ne_none_iff_exists'.mp ho
      · exact h.kept.held i o' ho'
    refine h.keep hk rfl rfl rfl rfl fun j sp _ hn => ?_
    obtain ⟨hpool, o', b', ho', hb'⟩ := hn
    refine ⟨hpool, o', b', ?_, hb'⟩
    exact mem_names_cons ho'
  · cases hs

theorem inv_unname {o : Nat} (h : Inv s) (hs : s.step (.unname i o) = some s') : Inv s' := by
  dsimp only [St.step] at hs
  split at hs
  · rename_i hphase
    cases hs
    have hk : Kept { s with names := update s.names i ((s.names i).erase o), cancelled := s.cancelled } :=
      names_kept h.kept fun o' ho' => h.kept.held i o' (List.mem_of_mem_erase ho')
    refine h.keep hk rfl rfl rfl rfl fun j sp hsp hn => ?_
    obtain ⟨hpool, o', b', ho', hb'⟩ := hn
    refine ⟨hpool, o', b', ?_, hb'⟩
    dsimp only
    by_cases hj : j = i
    · subst hj
      have ha := (h.call j).ahead
      rw [hphase] at ha
      rw [ha.1] at hsp
      exact absurd hsp List.not_mem_nil
    · rw [update_of_ne hj]
      exact ho'
  · cases hs

theorem inv_free {o : Nat} (h : Inv s) (hs : s.step (.free o) = some s') : Inv s' := by
  dsimp only [St.step] at hs
  split at hs
  · cases hs
  · rename_i b hb
    split at hs
    · rename_i hfree
      cases hs
      refine h.keep (free_kept h.kept hb hfree.1) rfl rfl rfl rfl fun j sp _ hn => ?_
      obtain ⟨hpool, o', b', ho', hb', hsp⟩ := hn
      have hne : o' ≠ o := fun heq => hfree.1 j (heq ▸ ho')
      exact ⟨hpool, o', b', ho', by dsimp only; rw [update_of_ne hne, hb'], hsp⟩
    · cases hs

theorem inv_unmap {m : Mapping} (h : Inv s) (hs : s.step (.unmap m) = some s') : Inv s' := by
  dsimp only [St.step] at hs
  split at hs
  · cases hs
    exact h.keep (h.kept.congr rfl rfl rfl) rfl rfl rfl rfl fun _ _ _ hn => hn
  · cases hs

theorem inv_step (h : Inv s) (hs : s.step a = some s') : Inv s' := by
  cases a with
  | plan i call retypes admits => exact inv_plan h hs
  | look i => exact inv_look h hs
  | clean i => exact inv_clean h hs
  | pass i holder ans => exact inv_pass h hs
  | finish i => exact inv_finish h hs
  | cancel i =>
    cases hs
    exact h.keep (h.kept.congr rfl rfl rfl) rfl rfl rfl rfl fun _ _ _ hn => hn
  | exit i => exact inv_exit h hs
  | make i o b => exact inv_make h hs
  | name i o => exact inv_name h hs
  | unname i o => exact inv_unname h hs
  | free o => exact inv_free h hs
  | unmap m => exact inv_unmap h hs

theorem Reachable.inv (h : Reachable s) : Inv s := by
  induction h with
  | start => exact start_inv
  | step _ hs ih => exact inv_step ih hs

end Presync
end KickOS
