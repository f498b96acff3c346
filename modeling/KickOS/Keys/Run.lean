import KickOS.Keys.Values

/-! Runs of any number of threads over the keys: a get answers with what the thread set, no two keys in use have one
index, and the end of a thread calls the destructors of its keys with its own values, so often and no more. -/

namespace KickOS.Keys
open Function (update_of_ne update_self)

variable {sh sh' : Shared} {th th' : Thread} {x y : Sys} {op : Op}

/-! ### The passes -/

/-- In `run_destructors` itself. -/
def Pc.inLoop : Pc → Bool
  | .scan | .taking _ _ => true
  | .live (.first _) _ | .live (.second _ _) _ | .liveGen (.first _) _ | .liveGen (.second _ _) _ => true
  | _ => false

/-- The call belongs to an earlier end, or to this one and lies in front of where its loops are. -/
def Thread.Passed (th : Thread) (c : DtorCall) : Prop :=
  c.fin < th.ends ∨
    (c.fin = th.ends ∧ th.frame ≠ .leaving ∧
      (c.pass < th.pass ∨ (c.pass = th.pass ∧ (c.index < th.index ∨ (c.index = th.index ∧ th.frame = .inDtor)))))

def DtorCall.place (c : DtorCall) : Nat × Nat × Nat := (c.fin, c.pass, c.index)

structure Counted (th : Thread) : Prop where
  loop : th.pc.inLoop = true → th.frame = .loop
  pass_lt : th.frame = .loop ∨ th.frame = .inDtor ∨ th.frame = .between → th.pass < keyPasses
  calls_lt : ∀ c ∈ th.calls, c.pass < keyPasses
  passed : ∀ c ∈ th.calls, th.Passed c
  nodup : (th.calls.map DtorCall.place).Nodup

theorem Counted.goto {pc : Pc} (h : Counted th) (hpc : pc.inLoop = true → th.pc.inLoop = true) : Counted { th with pc := pc } :=
  ⟨fun hl => h.loop (hpc hl), h.pass_lt, h.calls_lt, h.passed, h.nodup⟩

theorem Counted.next (h : Counted th) (hf : th.frame = .loop) (pc : Pc) :
    Counted { th with index := th.index + 1, pc := pc } := by
  refine ⟨fun _ => hf, h.pass_lt, h.calls_lt, ?_, h.nodup⟩
  intro c hc
  rcases h.passed c hc with hlt | ⟨heq, hn, hp | ⟨hp, hi⟩⟩
  · exact .inl hlt
  · exact .inr ⟨heq, hn, .inl hp⟩
  · refine .inr ⟨heq, hn, .inr ⟨hp, .inl ?_⟩⟩
    simp only
    omega

theorem counted_dead {w : What} {key : Nat} (h : Counted th) (hpc : th.pc = .live w key ∨ th.pc = .liveGen w key) :
    Counted (th.dead key w) := by
  have hloop : (∃ v, w = .first v) ∨ (∃ v d, w = .second v d) → th.frame = .loop := by
    intro hw
    refine h.loop ?_
    rcases hw with ⟨v, rfl⟩ | ⟨v, d, rfl⟩ <;> rcases hpc with hpc | hpc <;> rw [hpc] <;> rfl
  cases w with
  | delete => exact h.goto (fun hl => by cases hl)
  | get => exact h.goto (fun hl => by cases hl)
  | set v => exact h.goto (fun hl => by cases hl)
  | first v => exact h.next (hloop (.inl ⟨v, rfl⟩)) _
  | second v d => exact h.next (hloop (.inr ⟨v, d, rfl⟩)) _

theorem counted_alive {w : What} {key : Nat} (h : Counted th) (hpc : th.pc = .liveGen w key) : Counted (th.alive key w) := by
  cases w with
  | delete => exact h.goto (fun hl => by cases hl)
  | get => exact h.goto (fun hl => by cases hl)
  | set v => exact h.goto (fun hl => by cases hl)
  | first v => exact h.goto (fun _ => by rw [hpc]; rfl)
  | second v d =>
    have hf : th.frame = .loop := h.loop (by rw [hpc]; rfl)
    have hpass := h.pass_lt (.inl hf)
    have hn : th.frame ≠ .leaving := by simp [hf]
    refine ⟨fun hl => (by cases hl), fun _ => hpass, ?_, ?_, ?_⟩
    · intro c hc
      rcases List.mem_cons.1 hc with rfl | hc
      · exact hpass
      · exact h.calls_lt c hc
    · intro c hc
      rcases List.mem_cons.1 hc with rfl | hc
      · exact .inr ⟨rfl, by simp [Thread.alive], .inr ⟨rfl, .inr ⟨rfl, rfl⟩⟩⟩
      · rcases h.passed c hc with hlt | ⟨heq, -, hp | ⟨hp, hi | ⟨-, hd⟩⟩⟩
        · exact .inl hlt
        · exact .inr ⟨heq, by simp [Thread.alive], .inl hp⟩
        · exact .inr ⟨heq, by simp [Thread.alive], .inr ⟨hp, .inl hi⟩⟩
        · rw [hf] at hd
          cases hd
    · refine List.nodup_cons.2 ⟨?_, h.nodup⟩
      intro hmem
      obtain ⟨c, hc, hplace⟩ := List.mem_map.1 hmem
      simp only [DtorCall.place, Prod.mk.injEq] at hplace
      obtain ⟨hfin, hp, hi⟩ := hplace
      rcases h.passed c hc with hlt | ⟨-, -, hlt | ⟨-, hlt | ⟨-, hd⟩⟩⟩
      · omega
      · omega
      · omega
      · rw [hf] at hd
        cases hd

theorem counted_scan (h : Counted th) (hpc : th.pc = .scan) : Counted th.scan := by
  have hf : th.frame = .loop := h.loop (by rw [hpc]; rfl)
  unfold Thread.scan
  split_ifs
  · exact h.next hf th.pc
  · exact ⟨fun _ => hf, h.pass_lt, h.calls_lt, h.passed, h.nodup⟩
  · refine ⟨fun hl => (by cases hl), fun _ => h.pass_lt (.inl hf), h.calls_lt, ?_, h.nodup⟩
    intro c hc
    rcases h.passed c hc with hlt | ⟨heq, -, hp | ⟨hp, hi | ⟨-, hd⟩⟩⟩
    · exact .inl hlt
    · exact .inr ⟨heq, by simp, .inl hp⟩
    · exact .inr ⟨heq, by simp, .inr ⟨hp, .inl hi⟩⟩
    · rw [hf] at hd
      cases hd
  · exact h.goto (fun hl => by cases hl)

theorem counted_go (h : Counted th) (hs : th.go sh = some (sh', th')) : Counted th' := by
  unfold Thread.go at hs
  cases hpc : th.pc <;> simp only [hpc] at hs
  case user => cases hs
  case gone => cases hs
  case create i dtor =>
    split_ifs at hs
    all_goals
      cases hs
      exact h.goto (fun hl => by cases hl)
  case live w key =>
    split_ifs at hs
    · cases hs
      refine h.goto ?_
      intro hl
      rw [hpc]
      cases w <;> exact hl
    · cases hs
      exact counted_dead h (.inl hpc)
  case liveGen w key =>
    split_ifs at hs
    · cases hs
      exact counted_alive h hpc
    · cases hs
      exact counted_dead h (.inr hpc)
  case deleting key =>
    split_ifs at hs
    all_goals
      cases hs
      exact h.goto (fun hl => by cases hl)
  case setting key value =>
    cases hs
    exact ⟨fun hl => (by cases hl), h.pass_lt, h.calls_lt, h.passed, h.nodup⟩
  case scan =>
    cases hs
    exact counted_scan h hpc
  case taking key value =>
    split_ifs at hs
    · cases hs
      exact h.next (h.loop (by rw [hpc]; rfl)) _
    · cases hs
      exact h.goto (fun _ => by rw [hpc]; rfl)
  all_goals
    cases hs
    exact h.goto (fun hl => by cases hl)

theorem counted_back {back : Thread} (h : Counted th) (hb : th.back = some back) : Counted back := by
  unfold Thread.back at hb
  split at hb
  · cases hb
  · cases hb
  next hf =>
    cases hb
    refine ⟨fun _ => rfl, fun _ => (by decide : 0 < keyPasses), h.calls_lt, ?_, h.nodup⟩
    intro c hc
    rcases h.passed c hc with hlt | ⟨-, hn, -⟩
    · exact .inl hlt
    · exact absurd hf hn
  next hf =>
    cases hb
    refine ⟨fun _ => rfl, fun _ => h.pass_lt (.inr (.inl hf)), h.calls_lt, ?_, h.nodup⟩
    intro c hc
    rcases h.passed c hc with hlt | ⟨heq, -, hp | ⟨hp, hi⟩⟩
    · exact .inl hlt
    · exact .inr ⟨heq, by simp, .inl hp⟩
    · refine .inr ⟨heq, by simp, .inr ⟨hp, .inl ?_⟩⟩
      simp only
      omega
  next hf =>
    split at hb
    next hlt =>
      cases hb
      refine ⟨fun _ => rfl, fun _ => hlt, h.calls_lt, ?_, h.nodup⟩
      intro c hc
      rcases h.passed c hc with hlt | ⟨heq, -, hp⟩
      · exact .inl hlt
      · refine .inr ⟨heq, by simp, .inl ?_⟩
        simp only
        omega
    · cases hb
      exact h.goto (fun hl => by cases hl)

theorem counted_call (h : Counted th) (hpc : th.pc = .user) (hs : th.call sh op = some (sh', th')) : Counted th' := by
  cases op <;> simp only [Thread.call] at hs
  case create dtor =>
    cases hs
    exact h.goto (fun hl => by cases hl)
  case delete key =>
    split at hs
    · cases hs
      exact h.goto (fun hl => by cases hl)
    · cases hs
  case get key =>
    cases hs
    exact ⟨fun hl => (by cases hl), h.pass_lt, h.calls_lt, h.passed, h.nodup⟩
  case set key value =>
    cases hs
    exact ⟨fun hl => (by cases hl), h.pass_lt, h.calls_lt, h.passed, h.nodup⟩
  case exit =>
    cases hs
    refine ⟨?_, ?_, h.calls_lt, ?_, h.nodup⟩
    · simp [hpc, Pc.inLoop]
    · simp
    · intro c hc
      refine .inl ?_
      have : c.fin ≤ th.ends := by
        rcases h.passed c hc with hlt | ⟨heq, -⟩ <;> omega
      exact Nat.lt_succ_of_le this
  case back =>
    rw [Option.map_eq_some_iff] at hs
    obtain ⟨back, hb, hs⟩ := hs
    cases hs
    exact counted_back h hb
  case go => cases hs

theorem counted_step (h : Counted th) (hs : th.step sh op = some (sh', th')) : Counted th' := by
  rcases step_cases hs with ⟨hpc, hs⟩ | hs
  · exact counted_call h hpc hs
  · exact counted_go h hs

theorem Counted.length_le (h : Counted th) (fin index : Nat) :
    (th.calls.filter (fun c => c.fin = fin ∧ c.index = index)).length ≤ keyPasses := by
  have hsub : (th.calls.filter (fun c => c.fin = fin ∧ c.index = index)).Sublist th.calls := List.filter_sublist
  have hplace : ((th.calls.filter (fun c => c.fin = fin ∧ c.index = index)).map DtorCall.place).Nodup :=
      (hsub.map _).nodup h.nodup
  have heq : (th.calls.filter (fun c => c.fin = fin ∧ c.index = index)).map DtorCall.place =
      ((th.calls.filter (fun c => c.fin = fin ∧ c.index = index)).map DtorCall.pass).map (fun p => (fin, p, index)) := by
    rw [List.map_map]
    refine List.map_congr_left ?_
    intro c hc
    have hc := (List.mem_filter.1 hc).2
    simp only [decide_eq_true_eq] at hc
    simp [DtorCall.place, hc.1, hc.2]
  rw [heq] at hplace
  have hnodup := hplace.of_map
  have hsubset : ((th.calls.filter (fun c => c.fin = fin ∧ c.index = index)).map DtorCall.pass) ⊆ List.range keyPasses := by
    intro p hp
    obtain ⟨c, hc, rfl⟩ := List.mem_map.1 hp
    exact List.mem_range.2 (h.calls_lt c (hsub.subset hc))
  have hlen := (hnodup.subperm hsubset).length_le
  rwa [List.length_map, List.length_range] at hlen

/-! ### Runs -/

structure Sys.Inv (x : Sys) : Prop where
  table : x.sh.Inv
  held : ∀ t, Held x.sh (x.thread t).pc
  /-- An index is one thread's. -/
  one : ∀ t u i, (x.thread t).pc.holds = some i → (x.thread u).pc.holds = some i → t = u
  own : ∀ t, Own x.sh (x.thread t)
  seen : ∀ t, Seen x.sh (x.thread t)
  counted : ∀ t, Counted (x.thread t)

theorem Held.of_holds_none {pc : Pc} (hpc : pc.holds = none) : Held sh pc := by
  unfold Held
  split <;> trivial

theorem Sys.Inv.step {t : Nat} (h : x.Inv) (hs : x.step t op = some y) : y.Inv := by
  unfold Sys.step at hs
  rw [Option.map_eq_some_iff] at hs
  obtain ⟨⟨sh', th'⟩, hth, rfl⟩ := hs
  have hm := moved_step h.table (h.held t) hth
  obtain ⟨hown, hseen⟩ := local_step h.table (h.own t) (h.seen t) hth
  -- The index another thread has is neither the one this one had nor the one it has taken.
  have hother : ∀ u j, u ≠ t → (x.thread u).pc.holds = some j → (x.thread t).pc.holds ≠ some j ∧ th'.pc.holds ≠ some j := by
    intro u j hne hu
    have hnot : (x.thread t).pc.holds ≠ some j := fun ht => hne (h.one u t j hu ht)
    refine ⟨hnot, ?_⟩
    intro ht
    rcases hm.alone j ht with ht | hfree
    · exact hnot ht
    · exact hfree _ (h.held u) hu
  refine ⟨hm.inv, ?_, ?_, ?_, ?_, ?_⟩
  · intro u
    by_cases hu : u = t
    · subst hu
      simpa using hm.held
    · simp only [update_of_ne hu]
      cases hj : (x.thread u).pc.holds with
      | none => exact Held.of_holds_none hj
      | some j =>
        obtain ⟨h1, h2⟩ := hother u j hu hj
        exact (h.held u).same hj (hm.same j h1 h2)
  · intro u v i hu hv
    by_cases hut : u = t
    · by_cases hvt : v = t
      · rw [hut, hvt]
      · subst hut
        simp only [update_self, update_of_ne hvt] at hu hv
        exact absurd hu (hother v i hvt hv).2
    · by_cases hvt : v = t
      · subst hvt
        simp only [update_self, update_of_ne hut] at hu hv
        exact absurd hv (hother u i hut hu).2
      · simp only [update_of_ne hut, update_of_ne hvt] at hu hv
        exact h.one u v i hu hv
  · intro u
    by_cases hu : u = t
    · subst hu
      simpa using hown.le hm.le
    · simpa [update_of_ne hu] using (h.own u).le hm.le
  · intro u
    by_cases hu : u = t
    · subst hu
      simpa using hseen.le hm.le
    · simpa [update_of_ne hu] using (h.seen u).le hm.le
  · intro u
    by_cases hu : u = t
    · subst hu
      simpa using counted_step (h.counted u) hth
    · simpa [update_of_ne hu] using h.counted u

theorem Shared.Inv.start : ({} : Shared).Inv :=
  ⟨fun _ => (by decide : 0 < keyGenerations), fun _ _ => rfl, fun _ _ h => (by cases h), fun _ _ h => (by cases h),
    fun _ _ h => (by cases h), fun _ h => (by cases h), fun _ h => (by cases h), List.nodup_nil⟩

theorem Own.start : Own {} {} :=
  ⟨fun _ => le_rfl, fun _ _ => rfl, fun _ h => absurd rfl h, fun _ h => absurd rfl h, fun _ h => (by cases h)⟩

theorem Counted.start : Counted {} :=
  ⟨fun h => (by cases h), fun _ => (by decide : 0 < keyPasses), fun _ h => (by cases h), fun _ h => (by cases h), List.nodup_nil⟩

theorem Sys.Inv.start : ({} : Sys).Inv :=
  ⟨.start, fun _ => trivial, fun _ _ _ h => (by cases h), fun _ => .start, fun _ => trivial, fun _ => .start⟩

theorem Reachable.inv (h : Reachable x) : x.Inv := by
  induction h with
  | start => exact .start
  | step t op _ hs ih => exact ih.step hs

/-- The keys that creates gave and whose delete has not begun. -/
def Shared.inUse (sh : Shared) : List Nat := (sh.handed.map Prod.fst).filter (fun key => sh.deleted key = false)

theorem nodup_inUse (h : sh.Inv) : (sh.inUse.map indexOf).Nodup := by
  refine List.Nodup.map_on ?_ (h.nodup.filter _)
  intro a ha b hb hi
  obtain ⟨ha, hda⟩ := List.mem_filter.1 ha
  obtain ⟨hb, hdb⟩ := List.mem_filter.1 hb
  have hca := h.current a ha (by simpa using hda)
  have hcb := h.current b hb (by simpa using hdb)
  exact key_eq hi (by rw [← hca.2, ← hcb.2, hi])

/-- In every run, a get of a thread answers with what the thread holds under the key, the value it last set there less
what its end has taken, or with null, and that only if it holds none or the delete of the key has begun, and a set fails
only then. The keys in use have different indices. At the end of a thread a destructor is called only with a value the
thread set under the key a create gave for it, and at one index no more often than there are passes. -/
theorem keys_keep_values (hx : Reachable x) :
    (∀ t key value, (x.thread t).pc = .got key value →
      (value = (x.thread t).held key ∨ value = 0) ∧
        ((x.thread t).known = true → x.sh.deleted key = false → value = (x.thread t).held key)) ∧
    (∀ t key, (x.thread t).pc = .wasSet key false → (x.thread t).known = true → x.sh.deleted key = true) ∧
    (x.sh.inUse.map indexOf).Nodup ∧
    (∀ p ∈ x.sh.handed, x.sh.made p.1 = some p.2) ∧
    (∀ t, ∀ c ∈ (x.thread t).calls,
      x.sh.made c.key = some c.dtor ∧ (c.key, c.value) ∈ (x.thread t).sets ∧ indexOf c.key = c.index) ∧
    ∀ t fin index, ((x.thread t).calls.filter (fun c => c.fin = fin ∧ c.index = index)).length ≤ keyPasses := by
  have hinv := hx.inv
  refine ⟨?_, ?_, nodup_inUse hinv.table, hinv.table.handed_made, fun t => (hinv.own t).calls,
    fun t => (hinv.counted t).length_le⟩
  · intro t key value hpc
    have hseen := hinv.seen t
    unfold Seen at hseen
    rw [hpc] at hseen
    exact hseen
  · intro t key hpc
    have hseen := hinv.seen t
    unfold Seen at hseen
    rw [hpc] at hseen
    exact hseen rfl

theorem Reachable.run (hx : Reachable x) (ops : List (Nat × Op)) (hr : x.run ops = some y) : Reachable y := by
  induction ops generalizing x with
  | nil =>
    cases hr
    exact hx
  | cons op ops ih =>
    obtain ⟨z, hs, hr⟩ := Option.bind_eq_some_iff.1 hr
    exact ih (hx.step op.1 op.2 hs) hr

/-- Thread 0 creates the key 4 with the destructor 9 and sets 5 under it. -/
def createAndSet : List (Nat × Op) :=
  [(0, .create 9), (0, .go), (0, .go), (0, .go), (0, .go), (0, .go), (0, .go), (0, .go),
    (0, .set 4 5), (0, .go), (0, .go), (0, .go), (0, .go)]

/-- The thread ends, up to the call of the destructor. -/
def endsInDtor : List (Nat × Op) :=
  createAndSet ++ [(0, .exit), (0, .back), (0, .go), (0, .go), (0, .go), (0, .go), (0, .go), (0, .go)]

/-- The end of a thread calls the destructor of a key with its value. -/
theorem keys_keep_values_endsInDtor :
    ∃ y : Sys, Reachable y ∧ (y.thread 0).calls = [⟨1, 0, 0, 4, 9, 5⟩] ∧ y.sh.made 4 = some 9 ∧ (4, 5) ∈ (y.thread 0).sets := by
  obtain ⟨y, hrun, hcalls⟩ : ∃ y : Sys, Sys.run {} endsInDtor = some y ∧ (y.thread 0).calls = [⟨1, 0, 0, 4, 9, 5⟩] :=
      ⟨_, rfl, rfl⟩
  have hy : Reachable y := Reachable.start.run endsInDtor hrun
  obtain ⟨-, -, -, -, hdtor, -⟩ := keys_keep_values hy
  obtain ⟨hm, hset, -⟩ := hdtor 0 ⟨1, 0, 0, 4, 9, 5⟩ (by rw [hcalls]; exact List.mem_singleton_self _)
  exact ⟨y, hy, hcalls, hm, hset⟩

/-- A get of a deleted key is null, and so is one in the destructor of the key, though the thread has set a value under it. -/
theorem get_null_after_set :
    (∃ y : Sys, Reachable y ∧ (y.thread 0).sets = [(4, 5)] ∧ (y.thread 0).pc = .got 4 0) ∧
      ∃ y : Sys, Reachable y ∧ (y.thread 0).sets = [(4, 5)] ∧ y.sh.deleted 4 = false ∧ (y.thread 0).pc = .got 4 0 := by
  constructor
  · obtain ⟨y, hrun, hset, hpc⟩ : ∃ y : Sys,
        Sys.run {} (createAndSet ++ [(0, .delete 4), (0, .go), (0, .go), (0, .go), (0, .go), (0, .get 4), (0, .go)]) = some y ∧
          (y.thread 0).sets = [(4, 5)] ∧ (y.thread 0).pc = .got 4 0 := ⟨_, rfl, rfl, rfl⟩
    exact ⟨y, Reachable.start.run _ hrun, hset, hpc⟩
  · obtain ⟨y, hrun, hset, hdel, hpc⟩ : ∃ y : Sys,
        Sys.run {} (endsInDtor ++ [(0, .get 4), (0, .go), (0, .go), (0, .go)]) = some y ∧
          (y.thread 0).sets = [(4, 5)] ∧ y.sh.deleted 4 = false ∧ (y.thread 0).pc = .got 4 0 := ⟨_, rfl, rfl, rfl, rfl⟩
    exact ⟨y, Reachable.start.run _ hrun, hset, hdel, hpc⟩

end KickOS.Keys
