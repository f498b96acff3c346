import KickOS.Keys.Table

/-! What a thread knows of its values: they are those it last set under the keys its generations name, and a destructor
is called with one of them while its key is in use. -/

namespace KickOS.Keys
open Function (update_of_ne)

variable {sh sh' : Shared} {th th' : Thread} {i key dtor value : Nat} {w : What} {op : Op}

/-! ### A thread and the table -/

theorem moved_dead (h : sh.Inv) {pc : Pc} : Moved sh pc sh (th.dead key w).pc := by
  cases w <;> exact Moved.still h trivial (.inl rfl)

theorem moved_alive (h : sh.Inv) (hh : Held sh (.liveGen w key)) : Moved sh (.liveGen w key) sh (th.alive key w).pc := by
  cases w
  case delete => exact Moved.still h hh (.inr rfl)
  all_goals exact Moved.still h trivial (.inl rfl)

theorem moved_go (h : sh.Inv) (hh : Held sh th.pc) (hs : th.go sh = some (sh', th')) : Moved sh th.pc sh' th'.pc := by
  unfold Thread.go at hs
  cases hpc : th.pc <;> simp only [hpc] at hs hh
  case user => cases hs
  case gone => cases hs
  case create i dtor =>
    split_ifs at hs with hi hfree hlt
    · cases hs
      exact moved_claim h hi hfree hlt
    · cases hs
      exact Moved.still h trivial (.inl rfl)
    · cases hs
      exact Moved.still h trivial (.inl rfl)
  case claimed i dtor =>
    cases hs
    exact Moved.still h ⟨hh.1, hh.2, rfl⟩ (.inr rfl)
  case advance i dtor gen =>
    cases hs
    exact moved_storeGen h hh
  case store i dtor =>
    cases hs
    exact moved_storeDtor h hh
  case publish i dtor =>
    cases hs
    exact moved_publish h hh
  case name i dtor =>
    cases hs
    exact moved_hand h hh
  case live w key =>
    split_ifs at hs
    · cases hs
      cases w
      case delete => exact Moved.still h hh (.inr rfl)
      all_goals exact Moved.still h trivial (.inl rfl)
    · cases hs
      exact moved_dead h
  case liveGen w key =>
    split_ifs at hs
    · cases hs
      exact moved_alive h hh
    · cases hs
      exact moved_dead h
  case deleting key =>
    split_ifs at hs
    · cases hs
      exact moved_release h hh
    · cases hs
      exact Moved.still h trivial (.inl rfl)
  case scan =>
    cases hs
    unfold Thread.scan
    split_ifs
    · simp only [hpc]
      exact Moved.still h trivial (.inl rfl)
    · exact Moved.still h trivial (.inl rfl)
    · exact Moved.still h trivial (.inl rfl)
    · exact Moved.still h trivial (.inl rfl)
  case taking key value =>
    split_ifs at hs
    · cases hs
      exact Moved.still h trivial (.inl rfl)
    · cases hs
      exact Moved.still h trivial (.inl rfl)
  all_goals
    cases hs
    exact Moved.still h trivial (.inl rfl)

theorem moved_call (h : sh.Inv) (hpc : th.pc = .user) (hs : th.call sh op = some (sh', th')) : Moved sh th.pc sh' th'.pc := by
  cases op <;> simp only [Thread.call] at hs
  case create dtor =>
    cases hs
    exact Moved.still h trivial (.inl rfl)
  case delete key =>
    split at hs
    next hd =>
      cases hs
      exact moved_beginDelete h hd.1 hd.2
    · cases hs
  case get key =>
    cases hs
    exact Moved.still h trivial (.inl rfl)
  case set key value =>
    cases hs
    exact Moved.still h trivial (.inl rfl)
  case exit =>
    cases hs
    simp only [hpc]
    exact Moved.still h trivial (.inl rfl)
  case back =>
    rw [Option.map_eq_some_iff] at hs
    obtain ⟨back, hb, hs⟩ := hs
    cases hs
    unfold Thread.back at hb
    split at hb
    · cases hb
    · cases hb
    · cases hb
      exact Moved.still h trivial (.inl rfl)
    · cases hb
      exact Moved.still h trivial (.inl rfl)
    · split at hb
      · cases hb
        exact Moved.still h trivial (.inl rfl)
      · cases hb
        exact Moved.still h trivial (.inl rfl)
  case go => cases hs

theorem step_cases (hs : th.step sh op = some (sh', th')) :
    (th.pc = .user ∧ th.call sh op = some (sh', th')) ∨ th.go sh = some (sh', th') := by
  unfold Thread.step at hs
  split at hs
  next hpc => exact .inl ⟨hpc, hs⟩
  · split at hs
    · exact .inr hs
    · cases hs

theorem moved_step (h : sh.Inv) (hh : Held sh th.pc) (hs : th.step sh op = some (sh', th')) : Moved sh th.pc sh' th'.pc := by
  rcases step_cases hs with ⟨hpc, hs⟩ | hs
  · exact moved_call h hpc hs
  · exact moved_go h hh hs

/-! ### The values -/

/-- The words of a thread and what it set: a generation of its words is none of the future, its value is the one held
under the key of that generation, and what is held under a key is under none of a later generation. -/
structure Own (sh : Shared) (th : Thread) : Prop where
  gens_le : ∀ i, th.keyGens i ≤ (sh.key i).gen
  value : ∀ i, i < threadKeys → th.keys i = th.held (keyOf i (th.keyGens i))
  held_le : ∀ key, th.held key ≠ 0 → genOf key ≤ th.keyGens (indexOf key)
  held_set : ∀ key, th.held key ≠ 0 → (key, th.held key) ∈ th.sets
  calls : ∀ c ∈ th.calls, sh.made c.key = some c.dtor ∧ (c.key, c.value) ∈ th.sets ∧ indexOf c.key = c.index

/-- The end of a thread looks at the key of the index it is at, and has a value the thread set under it. -/
def Looking (sh : Shared) (th : Thread) (key value : Nat) : Prop :=
  (key, value) ∈ th.sets ∧ indexOf key = th.index ∧ genOf key ≤ (sh.key (indexOf key)).gen

def Seen (sh : Shared) (th : Thread) : Prop :=
  match th.pc with
  | .live .get key | .liveGen .get key | .getting key | .live (.set _) key | .liveGen (.set _) key =>
    th.known = true → sh.Given key
  | .got key value =>
    (value = th.held key ∨ value = 0) ∧ (th.known = true → sh.deleted key = false → value = th.held key)
  | .setting key _ => th.keyGens (indexOf key) ≤ genOf key ∧ genOf key ≤ (sh.key (indexOf key)).gen
  | .wasSet key ok => ok = false → th.known = true → sh.deleted key = true
  | .live (.first value) key => Looking sh th key value
  | .liveGen (.first value) key | .taking key value =>
    Looking sh th key value ∧ ((sh.key (indexOf key)).gen = genOf key → (sh.made key).isSome)
  | .live (.second value dtor) key | .liveGen (.second value dtor) key =>
    Looking sh th key value ∧ ((sh.key (indexOf key)).gen = genOf key → sh.made key = some dtor)
  | _ => True

theorem Own.le (h : Own sh th) (hle : sh.Le sh') : Own sh' th := by
  refine ⟨?_, h.value, h.held_le, h.held_set, ?_⟩
  · intro i
    exact (h.gens_le i).trans (hle.gen i)
  · intro c hc
    obtain ⟨hm, hset⟩ := h.calls c hc
    exact ⟨hle.made _ _ hm, hset⟩

theorem Looking.le (h : Looking sh th key value) (hle : sh.Le sh') :
    Looking sh' th key value := ⟨h.1, h.2.1, h.2.2.trans (hle.gen _)⟩

theorem Looking.gen_eq (h : Looking sh th key value) (hle : sh.Le sh') (heq : (sh'.key (indexOf key)).gen = genOf key) :
    (sh.key (indexOf key)).gen = genOf key := by
  have h1 := h.2.2
  have h2 := hle.gen (indexOf key)
  omega

theorem deleted_of_le (hle : sh.Le sh') (h : sh'.deleted key = false) : sh.deleted key = false := by
  cases hd : sh.deleted key with
  | false => rfl
  | true =>
    rw [hle.deleted key hd] at h
    cases h

theorem Seen.le (h : Seen sh th) (hle : sh.Le sh') : Seen sh' th := by
  have hfirst : ∀ {key value}, Looking sh th key value ∧ ((sh.key (indexOf key)).gen = genOf key → (sh.made key).isSome) →
      Looking sh' th key value ∧ ((sh'.key (indexOf key)).gen = genOf key → (sh'.made key).isSome) := by
    intro key value hl
    refine ⟨hl.1.le hle, ?_⟩
    intro heq
    obtain ⟨d, hd⟩ := Option.isSome_iff_exists.1 (hl.2 (hl.1.gen_eq hle heq))
    rw [hle.made _ _ hd]
    rfl
  have hsecond : ∀ {key value dtor}, Looking sh th key value ∧
      ((sh.key (indexOf key)).gen = genOf key → sh.made key = some dtor) → Looking sh' th key value ∧
      ((sh'.key (indexOf key)).gen = genOf key → sh'.made key = some dtor) := by
    intro key value dtor hl
    refine ⟨hl.1.le hle, ?_⟩
    intro heq
    exact hle.made _ _ (hl.2 (hl.1.gen_eq hle heq))
  have hgiven : ∀ {key}, (th.known = true → sh.Given key) → th.known = true → sh'.Given key := fun hg hk => hle.given _ (hg hk)
  unfold Seen at h ⊢
  split at h
  · exact hgiven h
  · exact hgiven h
  · exact hgiven h
  · exact hgiven h
  · exact hgiven h
  · exact ⟨h.1, fun hk hd => h.2 hk (deleted_of_le hle hd)⟩
  · exact ⟨h.1, h.2.trans (hle.gen _)⟩
  · exact fun hok hk => hle.deleted _ (h hok hk)
  · exact Looking.le h hle
  · exact hfirst h
  · exact hfirst h
  · exact hsecond h
  · exact hsecond h
  · trivial

/-! ### A step of the thread -/

theorem Own.goto {pc : Pc} {index : Nat} (h : Own sh th) : Own sh { th with pc := pc, index := index } :=
  ⟨h.gens_le, h.value, h.held_le, h.held_set, h.calls⟩

theorem own_dead (h : Own sh th) : Own sh (th.dead key w) := by
  cases w <;> exact h.goto

theorem seen_dead (hinv : sh.Inv) (hg : th.known = true → sh.Given key) (hd : ¬ sh.Current key)
    (hw : w = .get ∨ (∃ v, w = .set v)) : Seen sh (th.dead key w) := by
  have hdel : th.known = true → sh.deleted key = true := by
    intro hk
    by_contra hne
    exact hd (hinv.current key (hg hk) (by simpa using hne))
  rcases hw with rfl | ⟨v, rfl⟩
  · refine ⟨.inr rfl, ?_⟩
    intro hk hf
    have hk : th.known = true := hk
    rw [hdel hk] at hf
    cases hf
  · intro _ hk
    exact hdel hk

theorem seen_live (hinv : sh.Inv) (hseen : Seen sh th) (hpc : th.pc = .live w key ∨ th.pc = .liveGen w key)
    (hd : ¬ sh.Current key) : Seen sh (th.dead key w) := by
  unfold Seen at hseen
  cases w with
  | delete => trivial
  | get =>
    refine seen_dead hinv ?_ hd (.inl rfl)
    rcases hpc with hpc | hpc <;> simpa only [hpc] using hseen
  | set v =>
    refine seen_dead hinv ?_ hd (.inr ⟨v, rfl⟩)
    rcases hpc with hpc | hpc <;> simpa only [hpc] using hseen
  | first v => trivial
  | second v d => trivial

theorem seen_alive (hown : Own sh th) (hseen : Seen sh th) (hpc : th.pc = .liveGen w key)
    (hgen : (sh.key (indexOf key)).gen = genOf key) : Own sh (th.alive key w) ∧ Seen sh (th.alive key w) := by
  unfold Seen at hseen
  cases w <;> simp only [hpc] at hseen
  case delete => exact ⟨hown.goto, trivial⟩
  case get => exact ⟨hown.goto, hseen⟩
  case set v =>
    refine ⟨hown.goto, ?_, hgen.ge⟩
    rw [← hgen]
    exact hown.gens_le _
  case first v => exact ⟨hown.goto, hseen⟩
  case second v d =>
    obtain ⟨⟨hset, hidx, -⟩, hmade⟩ := hseen
    refine ⟨⟨hown.gens_le, hown.value, hown.held_le, hown.held_set, ?_⟩, trivial⟩
    intro c hc
    rcases List.mem_cons.1 hc with rfl | hc
    · exact ⟨hmade hgen, hset, hidx⟩
    · exact hown.calls c hc

/-- The answer of a get: under another generation the thread holds nothing of the key, or the key is gone. -/
theorem seen_got (hinv : sh.Inv) (hown : Own sh th) (hg : th.known = true → sh.Given key) :
    Seen sh { th with pc := .got key (if th.keyGens (indexOf key) = genOf key then th.keys (indexOf key) else 0) } := by
  have hheld : th.keyGens (indexOf key) = genOf key → th.keys (indexOf key) = th.held key := by
    intro heq
    rw [hown.value _ (indexOf_lt key), heq, keyOf_of_key]
  constructor
  · split
    next heq => exact .inl (hheld heq)
    · exact .inr rfl
  · intro hk hd
    split
    next heq => exact hheld heq
    next hne =>
      by_contra h0
      have hle := hown.held_le key (Ne.symm h0)
      have hgens := hown.gens_le (indexOf key)
      rw [(hinv.current key (hg hk) hd).2] at hgens
      exact hne (le_antisymm hgens hle)

theorem own_setValue (hown : Own sh th) (hgens : th.keyGens (indexOf key) ≤ genOf key)
    (hle : genOf key ≤ (sh.key (indexOf key)).gen) : Own sh (th.setValue key value) := by
  refine ⟨?_, ?_, ?_, ?_, ?_⟩
  · intro i
    by_cases hi : i = indexOf key
    · subst hi
      simpa [Thread.setValue] using hle
    · simpa [Thread.setValue, update_of_ne hi] using hown.gens_le i
  · intro i hlt
    by_cases hi : i = indexOf key
    · subst hi
      simp [Thread.setValue, keyOf_of_key]
    · have hne : keyOf i (th.keyGens i) ≠ key := by
        rintro rfl
        exact hi (indexOf_keyOf hlt).symm
      simpa [Thread.setValue, update_of_ne hi, update_of_ne hne] using hown.value i hlt
  · intro k hk
    by_cases hkk : k = key
    · subst hkk
      simp [Thread.setValue]
    · have hk : th.held k ≠ 0 := by simpa [Thread.setValue, update_of_ne hkk] using hk
      have hold := hown.held_le k hk
      by_cases hi : indexOf k = indexOf key
      · rw [hi] at hold
        simpa [Thread.setValue, hi] using hold.trans hgens
      · simpa [Thread.setValue, update_of_ne hi] using hold
  · intro k hk
    by_cases hkk : k = key
    · subst hkk
      simp [Thread.setValue]
    · simp only [Thread.setValue, update_of_ne hkk] at hk ⊢
      exact List.mem_cons_of_mem _ (hown.held_set k hk)
  · intro c hc
    obtain ⟨hm, hset, hi⟩ := hown.calls c hc
    exact ⟨hm, List.mem_cons_of_mem _ hset, hi⟩

theorem local_scan (hown : Own sh th) (hpc : th.pc = .scan) : Own sh th.scan ∧ Seen sh th.scan := by
  unfold Thread.scan
  split_ifs with hi h0 hran
  · refine ⟨hown.goto, ?_⟩
    unfold Seen
    simp only [hpc]
  · have hval := hown.value _ hi
    have hidx : indexOf (keyOf th.index (th.keyGens th.index)) = th.index := indexOf_keyOf hi
    have hgen : genOf (keyOf th.index (th.keyGens th.index)) = th.keyGens th.index := genOf_keyOf hi
    refine ⟨⟨hown.gens_le, ?_, ?_, ?_, hown.calls⟩, ?_, hidx, ?_⟩
    · intro j hj
      by_cases hji : j = th.index
      · subst hji
        simp
      · have hne : keyOf j (th.keyGens j) ≠ keyOf th.index (th.keyGens th.index) := by
          intro heq
          exact hji (by rw [← indexOf_keyOf hj, heq, hidx])
        simpa [update_of_ne hji, update_of_ne hne] using hown.value j hj
    · intro k hk
      by_cases hkk : k = keyOf th.index (th.keyGens th.index)
      · subst hkk
        simp at hk
      · exact hown.held_le k (by simpa [update_of_ne hkk] using hk)
    · intro k hk
      by_cases hkk : k = keyOf th.index (th.keyGens th.index)
      · subst hkk
        simp at hk
      · simp only [update_of_ne hkk] at hk ⊢
        exact hown.held_set k hk
    · rw [hval]
      exact hown.held_set _ (hval ▸ h0)
    · rw [hgen, hidx]
      exact hown.gens_le _
  · exact ⟨⟨hown.gens_le, hown.value, hown.held_le, hown.held_set, hown.calls⟩, trivial⟩
  · exact ⟨hown.goto, trivial⟩

theorem local_go (hinv : sh.Inv) (hown : Own sh th) (hseen : Seen sh th) (hs : th.go sh = some (sh', th')) :
    Own sh th' ∧ Seen sh th' := by
  have hat := hseen
  unfold Seen at hat
  unfold Thread.go at hs
  cases hpc : th.pc <;> simp only [hpc] at hs hat
  case user => cases hs
  case gone => cases hs
  case create i dtor =>
    split_ifs at hs
    all_goals
      cases hs
      exact ⟨hown.goto, trivial⟩
  case live w key =>
    split_ifs at hs with hu
    · cases hs
      refine ⟨hown.goto, ?_⟩
      cases w
      case delete => trivial
      case get => exact hat
      case set v => exact hat
      case first v =>
        refine ⟨hat, ?_⟩
        intro hgen
        rw [Shared.Current.made ⟨hu, hgen⟩ hinv]
        rfl
      case second v d => exact hat
    · cases hs
      exact ⟨own_dead hown, seen_live hinv hseen (.inl hpc) (fun hc => hu hc.1)⟩
  case liveGen w key =>
    split_ifs at hs with hgen
    · cases hs
      exact seen_alive hown hseen hpc hgen
    · cases hs
      exact ⟨own_dead hown, seen_live hinv hseen (.inr hpc) (fun hc => hgen hc.2)⟩
  case deleting key =>
    split_ifs at hs
    all_goals
      cases hs
      exact ⟨hown.goto, trivial⟩
  case getting key =>
    cases hs
    exact ⟨hown.goto, seen_got hinv hown hat⟩
  case setting key value =>
    cases hs
    refine ⟨own_setValue hown hat.1 hat.2, ?_⟩
    intro hok
    cases hok
  case scan =>
    cases hs
    exact local_scan hown hpc
  case taking key value =>
    split_ifs at hs
    · cases hs
      exact ⟨hown.goto, trivial⟩
    · cases hs
      refine ⟨hown.goto, hat.1, ?_⟩
      intro hgen
      -- The destructor was read with the key still of this generation.
      obtain ⟨d, hd⟩ := Option.isSome_iff_exists.1 (hat.2 hgen)
      rw [hinv.made_dtor key d hd hgen.symm]
      exact hd
  all_goals
    cases hs
    exact ⟨hown.goto, trivial⟩

theorem local_call (hown : Own sh th) (hpc : th.pc = .user) (hs : th.call sh op = some (sh', th')) :
    Own sh th' ∧ Seen sh th' := by
  cases op <;> simp only [Thread.call] at hs
  case create dtor =>
    cases hs
    exact ⟨hown.goto, trivial⟩
  case delete key =>
    split at hs
    · cases hs
      exact ⟨hown.goto, trivial⟩
    · cases hs
  case get key =>
    cases hs
    exact ⟨⟨hown.gens_le, hown.value, hown.held_le, hown.held_set, hown.calls⟩, fun hk => of_decide_eq_true hk⟩
  case set key value =>
    cases hs
    exact ⟨⟨hown.gens_le, hown.value, hown.held_le, hown.held_set, hown.calls⟩, fun hk => of_decide_eq_true hk⟩
  case exit =>
    cases hs
    refine ⟨⟨hown.gens_le, hown.value, hown.held_le, hown.held_set, hown.calls⟩, ?_⟩
    unfold Seen
    simp only [hpc]
  case back =>
    rw [Option.map_eq_some_iff] at hs
    obtain ⟨back, hb, hs⟩ := hs
    cases hs
    unfold Thread.back at hb
    split at hb
    · cases hb
    · cases hb
    · cases hb
      exact ⟨⟨hown.gens_le, hown.value, hown.held_le, hown.held_set, hown.calls⟩, trivial⟩
    · cases hb
      exact ⟨⟨hown.gens_le, hown.value, hown.held_le, hown.held_set, hown.calls⟩, trivial⟩
    · split at hb
      · cases hb
        exact ⟨⟨hown.gens_le, hown.value, hown.held_le, hown.held_set, hown.calls⟩, trivial⟩
      · cases hb
        exact ⟨hown.goto, trivial⟩
  case go => cases hs

theorem local_step (hinv : sh.Inv) (hown : Own sh th) (hseen : Seen sh th) (hs : th.step sh op = some (sh', th')) :
    Own sh th' ∧ Seen sh th' := by
  rcases step_cases hs with ⟨hpc, hs⟩ | hs
  · exact local_call hown hpc hs
  · exact local_go hinv hown hseen hs

end KickOS.Keys
