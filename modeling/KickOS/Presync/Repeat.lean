import KickOS.Presync.Steps

/-! Frames owing a sync are never mapped unsynced.

What the log says of the mappings is the invariant's `Sound`. A refused pass has its own mappings taken back by the
unwind, and the call goes round with the same arguments, unless its thread was cancelled and exits instead. -/

namespace KickOS
namespace Presync

variable {P : Pool} {n : Nat} {s s' t u : St P n} {i j : Fin n} {sp x : Span} {p : Nat} {a : Act P n}

/-! ### The mark of a refused pass -/

theorem presyncNote_refused (hs : s.presyncNote i sp = some t) : (t.recs i).refused = (s.recs i).refused := by
  unfold St.presyncNote at hs
  split at hs
  · cases hs
    rfl
  · split at hs
    · cases hs
    · dsimp only at hs
      split at hs <;> obtain rfl := Option.some.inj hs <;> simp [St.setRec]

theorem noteAll_refused {retypes admits : Nat → Bool} : ∀ {ws : List Want} {s : St P n},
    St.noteAll i retypes admits ws s = some t → (t.recs i).refused = (s.recs i).refused
  | [], s, hs => by
    cases hs
    rfl
  | w :: ws, s, hs => by
    unfold St.noteAll at hs
    split at hs
    · exact noteAll_refused hs
    · split at hs
      · obtain ⟨m, hm, hs⟩ := Option.bind_eq_some_iff.mp hs
        exact (noteAll_refused hs).trans (presyncNote_refused hm)
      · exact noteAll_refused hs

theorem mapOne_refused {holder : Nat} {ans : Answers} {w : Want} (hs : s.mapOne i holder ans w = some (t, true)) :
    (t.recs i).refused = (s.recs i).refused := by
  unfold St.mapOne at hs
  split at hs
  · cases hs
  · rename_i b hb
    split at hs
    · cases hs
    · dsimp only at hs
      split at hs
      · cases hs
      · rename_i hgo
        have hexcused : (s.excused i ans.retypes w b.span).1 = s := by
          unfold St.excused St.syncFrames at hgo ⊢
          split
          · split
            · rfl
            · split
              · rfl
              · simp_all
          · rfl
        rw [hexcused] at hs
        obtain ⟨e, he, hs⟩ := Option.map_eq_some_iff.mp hs
        obtain ⟨rfl, -⟩ := Prod.mk.inj hs
        unfold St.addEdit at he
        split at he
        · cases he
          rfl
        · split at he
          · obtain ⟨edits, -, rfl⟩ := Option.map_eq_some_iff.mp he
            simp [St.note, St.setRec]
          · cases he

theorem mapAll_refused {holder : Nat} {ans : Answers} : ∀ {ws : List Want} {s : St P n},
    St.mapAll i holder ans ws s = some (t, true) → (t.recs i).refused = (s.recs i).refused
  | [], s, hs => by
    obtain ⟨rfl, -⟩ := Prod.mk.inj (Option.some.inj hs)
    rfl
  | w :: ws, s, hs => by
    unfold St.mapAll at hs
    split at hs
    · cases hs
    · cases hs
    · rename_i m hm
      exact (mapAll_refused hs).trans (mapOne_refused hm)

theorem voidAll_refused : ∀ (sps : List Span) {s : St P n},
    ((St.voidAll i sps s).recs j).refused = (s.recs j).refused
  | [], s => rfl
  | sp :: sps, s => by
    refine (voidAll_refused sps).trans ?_
    unfold St.presyncVoid
    split
    · rfl
    · dsimp only [St.note]
      split <;> rfl

theorem presyncCommit_refused : ((s.presyncCommit i).recs j).refused = (s.recs j).refused := by
  unfold St.presyncCommit
  by_cases hj : j = i
  · subst hj
    rw [setRec_self]
    exact voidAll_refused _
  · rw [(setRec_local _).others j hj]
    exact voidAll_refused _

/-- Before its pass a call is not marked. -/
def Unmarked (s : St P n) (i : Fin n) : Prop :=
  ∀ call todo, (s.phase i = .sync call todo ∨ ∃ p, s.phase i = .found call p todo) → (s.recs i).refused = false

/-- The thread whose call an act is a step of. -/
def Act.thread : Act P n → Option (Fin n)
  | .plan i .. | .look i | .clean i | .pass i .. | .finish i | .exit i => some i
  | _ => none

theorem body_others (h : Inv s) {call : Asks P} (hphase : s.phase i = .sync call []) {holder : Nat} {ans : Answers}
    (hs : s.body i holder ans call.1 = some t) (hj : j ≠ i) : (t.recs j).refused = (s.recs j).refused := by
  unfold St.body at hs
  split at hs
  · cases hs
    rw [(setRec_local _).others j hj]
  · split at hs
    · cases hs
    · rename_i m ok hm
      obtain ⟨-, hlm, -⟩ := mapAll_does h hphase hm
      split at hs
      · cases hs
        rw [presyncCommit_refused, hlm.others j hj]
      · cases hs
        exact congrArg Record.refused (hlm.others j hj)

theorem others_step (h : Inv s) (hs : s.step a = some s') (hj : a.thread ≠ some j) :
    s'.phase j = s.phase j ∧ (s'.recs j).refused = (s.recs j).refused := by
  have hset : ∀ {t : St P n} {i : Fin n} {q : Phase P}, j ≠ i → (t.setPhase i q).phase j = t.phase j :=
    fun hne => Function.update_of_ne hne _ _
  have hother : ∀ {i : Fin n}, a.thread = some i → j ≠ i := fun ha heq => hj (heq ▸ ha)
  cases a with
  | plan i call retypes admits =>
    have hne := hother rfl
    dsimp only [St.step] at hs
    split at hs
    · obtain ⟨t, ht, rfl⟩ := Option.map_eq_some_iff.mp hs
      obtain ⟨hl, -⟩ := (plan_local h ht)
      rw [hset hne, hl.phase]
      exact ⟨rfl, congrArg Record.refused (hl.others j hne)⟩
    · cases hs
  | look i =>
    have hne := hother rfl
    dsimp only [St.step] at hs
    split at hs
    · split at hs <;> obtain rfl := Option.some.inj hs <;> exact ⟨hset hne, rfl⟩
    · cases hs
  | clean i =>
    have hne := hother rfl
    dsimp only [St.step] at hs
    split at hs
    · cases hs
      exact ⟨hset hne, rfl⟩
    · cases hs
  | pass i holder ans =>
    have hne := hother rfl
    dsimp only [St.step] at hs
    split at hs
    · rename_i call hphase
      split at hs
      · obtain ⟨t, ht, rfl⟩ := Option.map_eq_some_iff.mp hs
        have hr := body_others h hphase ht hne
        exact ⟨(hset hne).trans (congrFun (body_does h hphase ht).2 j), hr⟩
      · cases hs
    · cases hs
  | finish i =>
    have hne := hother rfl
    have hl : Local s (s.presyncEnd i) i := presyncDrop_local.trans (setRec_local _)
    dsimp only [St.step] at hs
    split at hs
    · split at hs <;> obtain rfl := Option.some.inj hs <;>
        exact ⟨(hset hne).trans (congrFun hl.phase j), congrArg Record.refused (hl.others j hne)⟩
    · cases hs
  | exit i =>
    have hne := hother rfl
    have hl : Local s (s.presyncExit i) i := presyncDrop_local.trans (setRec_local _)
    dsimp only [St.step] at hs
    split at hs
    · cases hs
      exact ⟨(hset hne).trans (congrFun hl.phase j), congrArg Record.refused (hl.others j hne)⟩
    · cases hs
  | cancel i =>
    cases hs
    exact ⟨rfl, rfl⟩
  | free o =>
    dsimp only [St.step] at hs
    split at hs
    · cases hs
    · split at hs
      · cases hs
        exact ⟨rfl, rfl⟩
      · cases hs
  | make i o b =>
    dsimp only [St.step] at hs
    split at hs
    · cases hs
      exact ⟨rfl, rfl⟩
    · cases hs
  | name i o =>
    dsimp only [St.step] at hs
    split at hs
    · cases hs
      exact ⟨rfl, rfl⟩
    · cases hs
  | unname i o =>
    dsimp only [St.step] at hs
    split at hs
    · cases hs
      exact ⟨rfl, rfl⟩
    · cases hs
  | unmap m =>
    dsimp only [St.step] at hs
    split at hs
    · cases hs
      exact ⟨rfl, rfl⟩
    · cases hs

theorem own_step (hs : s.step a = some s') (ha : a.thread = some i) :
    (∃ call todo, s'.phase i = .sync call todo ∧ (s'.recs i).refused = false ∧
        (s.phase i = .user ∨ s.phase i = .again call) ∧ ∃ retypes admits, a = .plan i call retypes admits) ∨
      (∃ call todo p, s.phase i = .sync call (p :: todo) ∧ s'.recs = s.recs ∧
        (s'.phase i = .found call p todo ∨ s'.phase i = .sync call todo)) ∨
      (∃ call p todo, s.phase i = .found call p todo ∧ s'.recs = s.recs ∧ s'.phase i = .sync call todo) ∨
      (∃ call, s.phase i = .sync call [] ∧ s'.phase i = .ended call) ∨
      (∃ call, s.phase i = .ended call ∧ a = .finish i ∧
        (s'.phase i = if (s.recs i).refused = true then .again call else .user)) ∨
      (a = .exit i ∧ s'.phase i = .user ∧ (s.phase i = .user ∨ s.cancelled i = true)) := by
  cases a with
  | plan i' call retypes admits =>
    cases ha
    dsimp only [St.step] at hs
    split at hs
    · rename_i hphase
      obtain ⟨t, ht, rfl⟩ := Option.map_eq_some_iff.mp hs
      refine Or.inl ⟨call, _, setPhase_self _, ?_, hphase, retypes, admits, rfl⟩
      rw [St.setPhase, noteAll_refused ht]
      simp [St.presyncBegin, St.note]
    · cases hs
  | look i' =>
    cases ha
    dsimp only [St.step] at hs
    split at hs
    · rename_i call p todo hphase
      split at hs
      · cases hs
        exact Or.inr (Or.inl ⟨call, todo, p, hphase, rfl, Or.inl (setPhase_self _)⟩)
      · cases hs
        exact Or.inr (Or.inl ⟨call, todo, p, hphase, rfl, Or.inr (setPhase_self _)⟩)
    · cases hs
  | clean i' =>
    cases ha
    dsimp only [St.step] at hs
    split at hs
    · rename_i call p todo hphase
      cases hs
      exact Or.inr (Or.inr (Or.inl ⟨call, p, todo, hphase, rfl, setPhase_self _⟩))
    · cases hs
  | pass i' holder ans =>
    cases ha
    dsimp only [St.step] at hs
    split at hs
    · rename_i call hphase
      split at hs
      · obtain ⟨t, -, rfl⟩ := Option.map_eq_some_iff.mp hs
        exact Or.inr (Or.inr (Or.inr (Or.inl ⟨call, hphase, setPhase_self _⟩)))
      · cases hs
    · cases hs
  | finish i' =>
    cases ha
    dsimp only [St.step] at hs
    split at hs
    · rename_i call hphase
      refine Or.inr (Or.inr (Or.inr (Or.inr (Or.inl ⟨call, hphase, rfl, ?_⟩))))
      split at hs
      · rename_i href
        cases hs
        rw [if_pos href, setPhase_self]
      · rename_i href
        cases hs
        rw [if_neg href, setPhase_self]
    · cases hs
  | exit i' =>
    cases ha
    dsimp only [St.step] at hs
    split at hs
    · rename_i hex
      cases hs
      exact Or.inr (Or.inr (Or.inr (Or.inr (Or.inr ⟨rfl, setPhase_self _, hex⟩))))
    · cases hs
  | _ => cases ha

theorem unmarked_step (h : Inv s) (hu : ∀ i, Unmarked s i) (hs : s.step a = some s') (i : Fin n) : Unmarked s' i := by
  intro call todo hphase
  by_cases ha : a.thread = some i
  · rcases own_step hs ha with ⟨-, -, -, href, -⟩ | ⟨c, td, p, hp, hr, -⟩ | ⟨c, p, td, hp, hr, -⟩ | ⟨c, -, hp⟩ |
      ⟨c, -, -, hp⟩ | ⟨-, hp, -⟩
    · exact href
    · rw [hr]
      exact hu i c _ (Or.inl hp)
    · rw [hr]
      exact hu i c td (Or.inr ⟨p, hp⟩)
    · rw [hp] at hphase
      rcases hphase with hphase | ⟨p, hphase⟩ <;> cases hphase
    · rw [hp] at hphase
      split at hphase <;> rcases hphase with hphase | ⟨p, hphase⟩ <;> cases hphase
    · rw [hp] at hphase
      rcases hphase with hphase | ⟨p, hphase⟩ <;> cases hphase
  · obtain ⟨hp, hr⟩ := others_step h hs ha
    rw [hp] at hphase
    rw [hr]
    exact hu i call todo hphase

theorem Reachable.unmarked (h : Reachable s) : ∀ i, Unmarked s i := by
  induction h with
  | start => exact fun _ _ _ _ => rfl
  | step hr hs ih => exact unmarked_step hr.inv ih hs

theorem refused_unwound (h : Reachable s) {holder : Nat} {ans : Answers} (hs : s.step (.pass i holder ans) = some s')
    (href : (s'.recs i).refused = true) : s'.maps = s.maps := by
  dsimp only [St.step] at hs
  split at hs
  · rename_i call hphase
    have hclean := h.unmarked i call [] (Or.inl hphase)
    split at hs
    · rename_i hfresh
      obtain ⟨t, ht, rfl⟩ := Option.map_eq_some_iff.mp hs
      unfold St.body at ht
      split at ht
      · cases ht
        rfl
      · split at ht
        · cases ht
        · rename_i m ok hm
          obtain ⟨-, -, hmaps⟩ := mapAll_does h.inv hphase hm
          split at ht
          · rename_i hok
            cases ht
            obtain ⟨rfl, -⟩ := Bool.and_eq_true_iff.mp hok
            have hmark : (((m.presyncCommit i).setPhase i (.ended call)).recs i).refused = false := by
              rw [← hclean, ← mapAll_refused hm]
              exact presyncCommit_refused
            rw [hmark] at href
            cases href
          · cases ht
            refine hmaps.trans (List.filter_eq_self.mpr fun x hx => ?_)
            exact decide_eq_true (hfresh x hx)
    · cases hs
  · cases hs

/-! ### The call goes round -/

theorem presyncNote_some (hroom : (s.recs i).noted.length < P.spans) (b : Block P) :
    ∃ t, s.presyncNote i b.span = some t ∧ (t.recs i).noted.length ≤ (s.recs i).noted.length + 1 := by
  unfold St.presyncNote
  split
  · exact ⟨s, rfl, Nat.le_succ _⟩
  · have hadd : presyncAdd P (s.recs i).noted b.span = some ((s.recs i).noted ++ [b.span]) := by
      have hsome := b.some
      have hnarrow := b.narrow
      exact if_neg (by omega)
    rw [hadd]
    dsimp only
    split
    · exact ⟨_, rfl, by simp [St.setRec]⟩
    · exact ⟨_, rfl, by simp [St.setRec]⟩

/-- The assertion of `presync_note` does not fail for a call with no more mappings to note than its record has spans,
which is what `Asks` takes of a call: `task_spawn_presync_plan` walks the windows of its parameters as they are counted
there. -/
theorem noteAll_some (retypes admits : Nat → Bool) : ∀ (ws : List Want) {s : St P n},
    (s.recs i).noted.length + ws.length ≤ P.spans → ∃ t, St.noteAll i retypes admits ws s = some t
  | [], s, _ => ⟨s, rfl⟩
  | w :: ws, s, hroom => by
    have hroom' : (s.recs i).noted.length + 1 + ws.length ≤ P.spans := by
      rw [List.length_cons] at hroom
      omega
    unfold St.noteAll
    split
    · exact noteAll_some retypes admits ws (by omega)
    · rename_i b hb
      split
      · obtain ⟨t, ht, hlen⟩ := presyncNote_some (s := s) (i := i) (by omega) b
        rw [ht]
        exact noteAll_some retypes admits ws (by omega)
      · exact noteAll_some retypes admits ws (by omega)

theorem plan_enabled {call : Asks P} (hphase : s.phase i = .again call) (retypes admits : Nat → Bool) :
    ∃ s', s.step (.plan i call retypes admits) = some s' := by
  have hnil : (((s.presyncBegin i).note (.planned i)).recs i).noted = [] := by simp [St.presyncBegin, St.note]
  have hroom : (((s.presyncBegin i).note (.planned i)).recs i).noted.length + call.1.length ≤ P.spans := by
    rw [hnil, List.length_nil, Nat.zero_add]
    exact call.2
  obtain ⟨t, ht⟩ := noteAll_some retypes admits call.1 hroom
  refine ⟨t.setPhase i (.sync call ((t.recs i).noted.flatMap (Span.granules P))), ?_⟩
  dsimp only [St.step]
  rw [if_pos (Or.inr hphase), ht]
  rfl

/-! ### Runs -/

def St.follow (s : St P n) : List (Act P n) → Option (St P n)
  | [] => some s
  | a :: as => (s.step a).bind fun t => t.follow as

theorem Reachable.follow : ∀ {as : List (Act P n)} {s : St P n}, Reachable s → s.follow as = some s' → Reachable s'
  | [], _, h, hs => by
    cases hs
    exact h
  | _ :: as, _, h, hs => by
    obtain ⟨t, ht, hs⟩ := Option.bind_eq_some_iff.mp hs
    exact (h.step ht).follow hs

def smallPool : Pool := { granule := 4096, lo := 65536, hi := 131072, spans := 3, pos := by decide }

def pair : Span := { pa := 65536, pages := 2 }

def pairBlock : Block smallPool where
  span := pair
  aligned := ⟨16, rfl⟩
  some := Nat.two_pos
  narrow := by decide
  fits := by decide
  whole := Or.inr (by decide)

def uncached : Asks smallPool := ⟨[⟨0, false⟩], Nat.succ_pos 2⟩

def first : Fin 2 := ⟨0, Nat.two_pos⟩

def second : Fin 2 := ⟨1, Nat.one_lt_two⟩

def granted : Answers := { staged := true, retypes := fun _ => false, room := fun _ => true, late := true }

def prepare (i : Fin 2) : List (Act smallPool 2) :=
  [.plan i uncached (fun _ => false) (fun _ => true), .look i, .clean i, .look i, .clean i]

/-- Both threads sync the pair ahead of the lock, and the second maps it. -/
def contested : List (Act smallPool 2) :=
  [.make first 0 pairBlock, .name second 0] ++ prepare first ++ prepare second ++ [.pass second 1 granted]

/-! ### The log -/

/-- In every reachable state: each pool span mapped while it owed a sync had every granule synced by the call that
mapped it, with no other call's edit of the granule completed in between. A refused pass leaves no mapping, and its call
is planned again with the same arguments, unless its thread is cancelled and exits. -/
theorem synced_before_mapped (h : Reachable s) :
    (∀ i sp earlier, (Event.mapped i sp true :: earlier) <:+ s.log → presyncPoolPages P sp ≠ 0 →
      ∀ p ∈ sp.granules P, Synced P earlier i p) ∧
    (∀ i holder ans s', s.step (.pass i holder ans) = some s' → (s'.recs i).refused = true → s'.maps = s.maps) ∧
    (∀ i call, s.phase i = .ended call → (s.recs i).refused = true → ∀ a s', s.step a = some s' →
      (s'.phase i = .ended call ∧ (s'.recs i).refused = true) ∨ s'.phase i = .again call ∨
        (a = .exit i ∧ s.cancelled i = true)) ∧
    ∀ i call, s.phase i = .again call →
      (∀ retypes admits, ∃ s', s.step (.plan i call retypes admits) = some s') ∧
        ∀ a s', s.step a = some s' → s'.phase i = .again call ∨ (∃ retypes admits, a = .plan i call retypes admits) ∨
          (a = .exit i ∧ s.cancelled i = true) := by
  refine ⟨h.inv.sound, fun i holder ans s' hs href => refused_unwound h hs href, ?_, ?_⟩
  · intro i call hphase href a s' hs
    by_cases ha : a.thread = some i
    · rcases own_step hs ha with ⟨c, -, -, -, hp, -⟩ | ⟨c, td, p, hp, -⟩ | ⟨c, p, td, hp, -⟩ | ⟨c, hp, -⟩ |
        ⟨c, hp, -, hp'⟩ | ⟨hex, -, hp⟩
      · rw [hphase] at hp
        rcases hp with hp | hp <;> cases hp
      · rw [hphase] at hp
        cases hp
      · rw [hphase] at hp
        cases hp
      · rw [hphase] at hp
        cases hp
      · rw [hphase] at hp
        obtain rfl := Phase.ended.inj hp
        rw [if_pos href] at hp'
        exact Or.inr (Or.inl hp')
      · rw [hphase] at hp
        rcases hp with hp | hp
        · cases hp
        · exact Or.inr (Or.inr ⟨hex, hp⟩)
    · obtain ⟨hp, hr⟩ := others_step h.inv hs ha
      exact Or.inl ⟨hp.trans hphase, hr.trans href⟩
  · intro i call hphase
    refine ⟨plan_enabled hphase, fun a s' hs => ?_⟩
    by_cases ha : a.thread = some i
    · rcases own_step hs ha with ⟨c, -, -, -, hp, r, ad, hact⟩ | ⟨c, td, p, hp, -⟩ | ⟨c, p, td, hp, -⟩ | ⟨c, hp, -⟩ |
        ⟨c, hp, -⟩ | ⟨hex, -, hp⟩
      · rw [hphase] at hp
        rcases hp with hp | hp
        · cases hp
        · obtain rfl := Phase.again.inj hp
          exact Or.inr (Or.inl ⟨r, ad, hact⟩)
      · rw [hphase] at hp
        cases hp
      · rw [hphase] at hp
        cases hp
      · rw [hphase] at hp
        cases hp
      · rw [hphase] at hp
        cases hp
      · rw [hphase] at hp
        rcases hp with hp | hp
        · cases hp
        · exact Or.inr (Or.inr ⟨hex, hp⟩)
    · exact Or.inl ((others_step h.inv hs ha).1.trans hphase)

/-- The second thread's mapping of the pair follows its own sync of it. -/
theorem synced_before_mapped_contested : ∃ s : St smallPool 2, Reachable s ∧
    ∃ earlier, (Event.mapped second pair true :: earlier) <:+ s.log ∧ Synced smallPool earlier second 65536 := by
  have hlog : ((St.start smallPool 2).follow contested).map (fun s => s.log.drop 1) =
      some (.mapped second pair true :: [.synced second 69632, .synced second 65536, .planned second,
        .synced first 69632, .synced first 65536, .planned first]) := by decide +kernel
  obtain ⟨s, hs, hlog⟩ := Option.map_eq_some_iff.mp hlog
  have hr : Reachable s := Reachable.start.follow hs
  have hsuf : (Event.mapped second pair true :: [.synced second 69632, .synced second 65536, .planned second,
      .synced first 69632, .synced first 65536, .planned first]) <:+ s.log := hlog ▸ List.drop_suffix 1 s.log
  exact ⟨s, hr, _, hsuf, (synced_before_mapped hr).1 second pair _ hsuf (by decide) 65536 (by decide)⟩

/-- The first thread's pass is then refused, and a cancel recorded before it goes round ends it there: its call is not
made again. -/
theorem refused_not_repeated : ¬ ∀ s : St smallPool 2, Reachable s → ∀ i call, s.phase i = .again call → ∀ a s',
    s.step a = some s' → s'.phase i = .again call ∨ ∃ retypes admits, a = .plan i call retypes admits := by
  intro hclaim
  have hend : (((St.start smallPool 2).follow (contested ++ [.pass first 2 granted, .finish first, .cancel first])).bind
      fun s => (s.step (.exit first)).map fun s' => (s.phase first, s'.phase first)) =
      some (.again uncached, .user) := by decide +kernel
  obtain ⟨s, hs, hend⟩ := Option.bind_eq_some_iff.mp hend
  obtain ⟨s', hs', hend⟩ := Option.map_eq_some_iff.mp hend
  obtain ⟨hphase, hphase'⟩ := Prod.mk.inj hend
  rcases hclaim s (Reachable.start.follow hs) first uncached hphase (.exit first) s' hs' with hagain | ⟨_, _, hact⟩
  · rw [hphase'] at hagain
    cases hagain
  · cases hact

end Presync
end KickOS
