import KickOS.Keys.Model

/-! The table of the keys: who may change an index, and what its generations say of the keys that were made at it. -/

namespace KickOS.Keys
open Function (update update_of_ne update_self)

/-! ### Keys and their indices -/

theorem indexOf_lt (key : Nat) : indexOf key < threadKeys := Nat.mod_lt key (by decide)

theorem indexOf_keyOf {i gen : Nat} (hi : i < threadKeys) : indexOf (keyOf i gen) = i := by
  unfold indexOf keyOf
  rw [Nat.add_mul_mod_self_left, Nat.mod_eq_of_lt hi]

theorem genOf_keyOf {i gen : Nat} (hi : i < threadKeys) : genOf (keyOf i gen) = gen := by
  unfold genOf keyOf
  rw [Nat.add_mul_div_left _ _ (by decide), Nat.div_eq_of_lt hi, Nat.zero_add]

theorem keyOf_of_key (key : Nat) : keyOf (indexOf key) (genOf key) = key := Nat.mod_add_div key threadKeys

theorem key_eq {a b : Nat} (hi : indexOf a = indexOf b) (hg : genOf a = genOf b) : a = b := by
  rw [← keyOf_of_key a, ← keyOf_of_key b, hi, hg]

/-! ### The table -/

variable {sh sh' : Shared} {i j key dtor : Nat}

/-- The key is the one of its index, in use. -/
def Shared.Current (sh : Shared) (key : Nat) : Prop :=
  (sh.key (indexOf key)).state = .used ∧ (sh.key (indexOf key)).gen = genOf key

structure Shared.Inv (sh : Shared) : Prop where
  creates_lt : ∀ i, sh.creates i < keyGenerations
  gen_eq : ∀ i, (sh.key i).state ≠ .claimed → (sh.key i).gen = sh.creates i
  used : ∀ i, i < threadKeys → (sh.key i).state = .used → sh.made (keyOf i (sh.key i).gen) = some (sh.key i).dtor
  made_le : ∀ key dtor, sh.made key = some dtor → genOf key ≤ (sh.key (indexOf key)).gen
  made_dtor : ∀ key dtor, sh.made key = some dtor → genOf key = (sh.key (indexOf key)).gen → (sh.key (indexOf key)).dtor = dtor
  handed_made : ∀ p ∈ sh.handed, sh.made p.1 = some p.2
  current : ∀ key, sh.Given key → sh.deleted key = false → sh.Current key
  nodup : (sh.handed.map Prod.fst).Nodup

theorem Shared.Current.made (hk : sh.Current key) (h : sh.Inv) : sh.made key = some (sh.key (indexOf key)).dtor := by
  have hmade := h.used _ (indexOf_lt key) hk.1
  rw [hk.2, keyOf_of_key] at hmade
  exact hmade

/-- What does not go back. -/
structure Shared.Le (sh sh' : Shared) : Prop where
  gen : ∀ i, (sh.key i).gen ≤ (sh'.key i).gen
  made : ∀ key dtor, sh.made key = some dtor → sh'.made key = some dtor
  given : ∀ key, sh.Given key → sh'.Given key
  deleted : ∀ key, sh.deleted key = true → sh'.deleted key = true

theorem Shared.Le.refl (sh : Shared) : sh.Le sh := ⟨fun _ => le_rfl, fun _ _ h => h, fun _ h => h, fun _ h => h⟩

/-- Nothing of an index is changed. -/
structure Shared.Same (sh sh' : Shared) (j : Nat) : Prop where
  key : sh'.key j = sh.key j
  creates : sh'.creates j = sh.creates j
  made : ∀ key, indexOf key = j → sh'.made key = sh.made key
  given : ∀ key, indexOf key = j → (sh'.Given key ↔ sh.Given key)
  deleted : ∀ key, indexOf key = j → sh'.deleted key = sh.deleted key

theorem Shared.Same.refl (sh : Shared) (j : Nat) : sh.Same sh j := ⟨rfl, rfl, fun _ _ => rfl, fun _ _ => Iff.rfl, fun _ _ => rfl⟩

/-! ### The thread that has an index to itself -/

/-- The index a create has claimed, or whose key a delete is at. -/
def Pc.holds : Pc → Option Nat
  | .claimed i _ | .advance i _ _ | .store i _ | .publish i _ | .name i _ => some i
  | .live .delete key | .liveGen .delete key | .deleting key => some (indexOf key)
  | _ => none

def Building (sh : Shared) (i : Nat) : Prop := i < threadKeys ∧ (sh.key i).state = .claimed

def Deleting (sh : Shared) (key : Nat) : Prop := sh.Given key ∧ sh.deleted key = true ∧ sh.Current key

/-- How its index stands for such a thread. -/
def Held (sh : Shared) : Pc → Prop
  | .claimed i _ => Building sh i ∧ (sh.key i).gen + 1 = sh.creates i
  | .advance i _ gen => Building sh i ∧ (sh.key i).gen + 1 = sh.creates i ∧ (sh.key i).gen = gen
  | .store i _ => Building sh i ∧ (sh.key i).gen = sh.creates i ∧ sh.made (keyOf i (sh.key i).gen) = none
  | .publish i dtor =>
    Building sh i ∧ (sh.key i).gen = sh.creates i ∧ sh.made (keyOf i (sh.key i).gen) = none ∧ (sh.key i).dtor = dtor
  | .name i dtor =>
    i < threadKeys ∧ (sh.key i).state = .used ∧ sh.made (keyOf i (sh.key i).gen) = some dtor ∧ ¬ sh.Given (keyOf i (sh.key i).gen)
  | .live .delete key | .liveGen .delete key | .deleting key => Deleting sh key
  | _ => True

theorem Building.same (h : Building sh i) (hs : sh.Same sh' i) : Building sh' i := by
  unfold Building
  rw [hs.key]
  exact h

theorem Deleting.same (h : Deleting sh key) (hs : sh.Same sh' (indexOf key)) : Deleting sh' key := by
  obtain ⟨hg, hd, hu, hgen⟩ := h
  refine ⟨(hs.given key rfl).2 hg, (hs.deleted key rfl).trans hd, ?_, ?_⟩
  · rw [hs.key]
    exact hu
  · rw [hs.key]
    exact hgen

theorem Held.same {pc : Pc} (h : Held sh pc) (hpc : pc.holds = some i) (hs : sh.Same sh' i) : Held sh' pc := by
  unfold Pc.holds at hpc
  split at hpc <;> cases hpc
  case h_1 =>
    simp only [Held, hs.key, hs.creates] at h ⊢
    exact ⟨h.1.same hs, h.2⟩
  case h_2 =>
    simp only [Held, hs.key, hs.creates] at h ⊢
    exact ⟨h.1.same hs, h.2⟩
  case h_3 =>
    simp only [Held, hs.key, hs.creates] at h ⊢
    rw [hs.made _ (indexOf_keyOf h.1.1)]
    exact ⟨h.1.same hs, h.2⟩
  case h_4 =>
    simp only [Held, hs.key, hs.creates] at h ⊢
    rw [hs.made _ (indexOf_keyOf h.1.1)]
    exact ⟨h.1.same hs, h.2⟩
  case h_5 =>
    simp only [Held, hs.key] at h ⊢
    rw [hs.made _ (indexOf_keyOf h.1), hs.given _ (indexOf_keyOf h.1)]
    exact h
  case h_6 => exact Deleting.same h hs
  case h_7 => exact Deleting.same h hs
  case h_8 => exact Deleting.same h hs

/-- A create has published its key and not given it. -/
def Named (sh : Shared) (i : Nat) : Prop := (sh.key i).state = .used ∧ ¬ sh.Given (keyOf i (sh.key i).gen)

theorem Held.cases {pc : Pc} (h : Held sh pc) (hpc : pc.holds = some i) :
    Building sh i ∨ Named sh i ∨ ∃ key, indexOf key = i ∧ Deleting sh key := by
  unfold Pc.holds at hpc
  split at hpc <;> cases hpc
  case h_5 => exact .inr (.inl ⟨h.2.1, h.2.2.2⟩)
  case h_6 key => exact .inr (.inr ⟨key, rfl, h⟩)
  case h_7 key => exact .inr (.inr ⟨key, rfl, h⟩)
  case h_8 key => exact .inr (.inr ⟨key, rfl, h⟩)
  all_goals exact .inl h.1

theorem Held.not_free {pc : Pc} (h : Held sh pc) (hpc : pc.holds = some i) : (sh.key i).state ≠ .free := by
  rcases h.cases hpc with hb | hn | ⟨key, rfl, hd⟩
  · simp [hb.2]
  · simp [hn.1]
  · simp [hd.2.2.1]

theorem Held.deleted {pc : Pc} (hinv : sh.Inv) (h : Held sh pc) (hpc : pc.holds = some (indexOf key)) (hg : sh.Given key) :
    sh.deleted key = true := by
  by_contra hd
  obtain ⟨hu, hgen⟩ := hinv.current key hg (by simpa using hd)
  rcases h.cases hpc with hb | hn | ⟨k, hk, hdel⟩
  · rw [hb.2] at hu
    cases hu
  · refine hn.2 ?_
    rw [hgen, keyOf_of_key]
    exact hg
  · have heq : k = key := key_eq hk (by rw [← hgen, ← hk, hdel.2.2.2])
    exact hd (heq ▸ hdel.2.1)

/-! ### What becomes of the table -/

section Moves

theorem put_of_ne {k : Key} (h : j ≠ i) : (sh.put i k).key j = sh.key j := by
  unfold Shared.put
  exact update_of_ne h k sh.key

@[simp] theorem put_self (sh : Shared) (i : Nat) (k : Key) : (sh.put i k).key i = k := by
  unfold Shared.put
  exact update_self i k sh.key

@[simp] theorem put_creates (sh : Shared) (i : Nat) (k : Key) : (sh.put i k).creates = sh.creates := rfl

@[simp] theorem put_made (sh : Shared) (i : Nat) (k : Key) : (sh.put i k).made = sh.made := rfl

theorem same_put {k : Key} (h : j ≠ i) : sh.Same (sh.put i k) j :=
  ⟨put_of_ne h, rfl, fun _ _ => rfl, fun _ _ => Iff.rfl, fun _ _ => rfl⟩

theorem le_put {k : Key} (h : (sh.key i).gen ≤ k.gen) : sh.Le (sh.put i k) := by
  refine ⟨?_, fun _ _ h => h, fun _ h => h, fun _ h => h⟩
  intro j
  by_cases hj : j = i
  · subst hj
    simpa using h
  · rw [put_of_ne hj]

theorem Shared.Inv.put {k : Key} (h : sh.Inv) (hgen : k.state ≠ .claimed → k.gen = sh.creates i)
    (hused : i < threadKeys → k.state = .used → sh.made (keyOf i k.gen) = some k.dtor) (hle : (sh.key i).gen ≤ k.gen)
    (hdtor : ∀ key dtor, indexOf key = i → sh.made key = some dtor → genOf key = k.gen → k.dtor = dtor)
    (hcur : ∀ key, indexOf key = i → sh.Given key → sh.deleted key = false → k.state = .used ∧ k.gen = genOf key) :
      (sh.put i k).Inv := by
  refine ⟨h.creates_lt, ?_, ?_, ?_, ?_, h.handed_made, ?_, h.nodup⟩
  · intro j hne
    by_cases hj : j = i
    · subst hj
      rw [put_self] at hne ⊢
      exact hgen hne
    · rw [put_of_ne hj] at hne ⊢
      exact h.gen_eq j hne
  · intro j hlt hu
    by_cases hj : j = i
    · subst hj
      rw [put_self] at hu ⊢
      exact hused hlt hu
    · rw [put_of_ne hj] at hu ⊢
      exact h.used j hlt hu
  · intro key dtor hm
    exact (h.made_le key dtor hm).trans ((le_put hle).gen _)
  · intro key dtor hm heq
    by_cases hj : indexOf key = i
    · rw [hj, put_self] at heq ⊢
      exact hdtor key dtor hj hm heq
    · rw [put_of_ne hj] at heq ⊢
      exact h.made_dtor key dtor hm heq
  · intro key hg hd
    unfold Shared.Current
    by_cases hj : indexOf key = i
    · rw [hj, put_self]
      exact hcur key hj hg hd
    · rw [put_of_ne hj]
      exact h.current key hg hd

theorem Building.not_current (hb : Building sh i) (h : sh.Inv) (hi : indexOf key = i) (hg : sh.Given key) :
    sh.deleted key ≠ false := by
  intro hd
  have hu := (h.current key hg hd).1
  rw [hi, hb.2] at hu
  cases hu

theorem Shared.Inv.count (h : sh.Inv) (hclaimed : (sh.key i).state = .claimed) (hlt : sh.creates i + 1 < keyGenerations) :
    ({ sh with creates := update sh.creates i (sh.creates i + 1) } : Shared).Inv := by
  refine ⟨?_, ?_, h.used, h.made_le, h.made_dtor, h.handed_made, h.current, h.nodup⟩
  · intro j
    by_cases hj : j = i
    · subst hj
      simpa using hlt
    · simpa [update_of_ne hj] using h.creates_lt j
  · intro j hne
    by_cases hj : j = i
    · subst hj
      exact absurd hclaimed hne
    · simpa [update_of_ne hj] using h.gen_eq j hne

theorem Shared.Inv.claim (h : sh.Inv) (hfree : (sh.key i).state = .free) (hlt : sh.creates i + 1 < keyGenerations) :
    (sh.claim i).Inv := by
  have hput : (sh.put i { sh.key i with state := .claimed }).Inv := by
    refine h.put ?_ ?_ le_rfl ?_ ?_
    · intro hne
      exact absurd rfl hne
    · intro _ hu
      cases hu
    · intro key dtor hi hm heq
      subst hi
      exact h.made_dtor key dtor hm heq
    · intro key hi hg hd
      subst hi
      rw [(h.current key hg hd).1] at hfree
      cases hfree
  exact hput.count (by simp) hlt

theorem Shared.Inv.storeGen {gen : Nat} (h : sh.Inv) (hb : Building sh i) (hlt : (sh.key i).gen < gen) :
    (sh.storeGen i gen).Inv := by
  refine h.put ?_ ?_ hlt.le ?_ ?_
  · intro hne
    exact absurd hb.2 hne
  · intro _ hu
    rw [hb.2] at hu
    cases hu
  · intro key dtor hi hm heq
    subst hi
    have hle := h.made_le key dtor hm
    have heq : genOf key = gen := heq
    omega
  · intro key hi hg hd
    exact absurd hd (hb.not_current h hi hg)

theorem Shared.Inv.storeDtor (h : sh.Inv) (hb : Building sh i) (hm : sh.made (keyOf i (sh.key i).gen) = none) :
    (sh.storeDtor i dtor).Inv := by
  refine h.put ?_ ?_ le_rfl ?_ ?_
  · intro hne
    exact absurd hb.2 hne
  · intro _ hu
    rw [hb.2] at hu
    cases hu
  · intro key d hi hmade heq
    subst hi
    rw [← heq, keyOf_of_key, hmade] at hm
    cases hm
  · intro key hi hg hd
    exact absurd hd (hb.not_current h hi hg)

theorem Shared.Inv.publish (h : sh.Inv) (hb : Building sh i) (hc : (sh.key i).gen = sh.creates i)
    (hm : sh.made (keyOf i (sh.key i).gen) = none) (hd : (sh.key i).dtor = dtor) : (sh.publish i dtor).Inv := by
  have hmade : ({ sh with made := update sh.made (keyOf i (sh.key i).gen) (some dtor) } : Shared).Inv := by
    refine ⟨h.creates_lt, h.gen_eq, ?_, ?_, ?_, ?_, h.current, h.nodup⟩
    · intro j hj hu
      have hne : keyOf j (sh.key j).gen ≠ keyOf i (sh.key i).gen := by
        intro heq
        have hji : j = i := by rw [← indexOf_keyOf hj, heq, indexOf_keyOf hb.1]
        rw [hji, hb.2] at hu
        cases hu
      simpa [update_of_ne hne] using h.used j hj hu
    · intro key d hmk
      by_cases hk : key = keyOf i (sh.key i).gen
      · subst hk
        simp only [indexOf_keyOf hb.1, genOf_keyOf hb.1]
        exact le_rfl
      · exact h.made_le key d (by simpa [update_of_ne hk] using hmk)
    · intro key d hmk
      by_cases hk : key = keyOf i (sh.key i).gen
      · subst hk
        simp only [update_self, Option.some.injEq] at hmk
        intro _
        simp only [indexOf_keyOf hb.1]
        rw [hd, hmk]
      · exact h.made_dtor key d (by simpa [update_of_ne hk] using hmk)
    · intro p hp
      have hmp := h.handed_made p hp
      have hk : p.1 ≠ keyOf i (sh.key i).gen := by
        intro heq
        rw [heq, hm] at hmp
        cases hmp
      simpa [update_of_ne hk] using hmp
  refine hmade.put (fun _ => hc) ?_ le_rfl ?_ ?_
  · intro _ _
    simp [hd]
  · intro key d hi hmk heq
    subst hi
    exact hmade.made_dtor key d hmk heq
  · intro key hi hg hd
    exact absurd hd (hb.not_current h hi hg)

theorem Shared.Inv.hand (h : sh.Inv) (hi : i < threadKeys) (hu : (sh.key i).state = .used)
    (hm : sh.made (keyOf i (sh.key i).gen) = some dtor) (hn : ¬ sh.Given (keyOf i (sh.key i).gen)) :
    (sh.hand (keyOf i (sh.key i).gen) dtor).Inv := by
  refine ⟨h.creates_lt, h.gen_eq, h.used, h.made_le, h.made_dtor, ?_, ?_, ?_⟩
  · intro p hp
    rcases List.mem_cons.1 hp with rfl | hp
    · exact hm
    · exact h.handed_made p hp
  · intro key hg hd
    rcases List.mem_cons.1 hg with rfl | hg
    · unfold Shared.Current
      simp only [indexOf_keyOf hi, genOf_keyOf hi]
      exact ⟨hu, rfl⟩
    · exact h.current key hg hd
  · exact List.nodup_cons.2 ⟨hn, h.nodup⟩

theorem Shared.Inv.beginDelete (h : sh.Inv) (key : Nat) : (sh.beginDelete key).Inv := by
  refine ⟨h.creates_lt, h.gen_eq, h.used, h.made_le, h.made_dtor, h.handed_made, ?_, h.nodup⟩
  intro k hg hd
  by_cases hk : k = key
  · subst hk
    simp [Shared.beginDelete] at hd
  · exact h.current k hg (by simpa [Shared.beginDelete, update_of_ne hk] using hd)

theorem Shared.Inv.release (h : sh.Inv) (hk : Deleting sh key) : (sh.release (indexOf key)).Inv := by
  obtain ⟨-, hdel, hu, hgen⟩ := hk
  refine h.put ?_ ?_ le_rfl ?_ ?_
  · intro _
    exact h.gen_eq _ (by simp [hu])
  · intro _ hu
    cases hu
  · intro k d hi hm heq
    rw [← hi] at heq ⊢
    exact h.made_dtor k d hm heq
  · intro k hi hg hd
    -- The one key of the index in use is the one that is deleted.
    have hcur := h.current k hg hd
    have heq : k = key := key_eq hi (by rw [← hcur.2, hi, hgen])
    rw [heq, hdel] at hd
    cases hd

/-- What a step of a thread does to the table: it keeps its invariant, changes only the index the thread has, before or
after, and takes only one that nobody has. -/
structure Moved (sh : Shared) (pc : Pc) (sh' : Shared) (pc' : Pc) : Prop where
  inv : sh'.Inv
  le : sh.Le sh'
  held : Held sh' pc'
  same : ∀ j, pc.holds ≠ some j → pc'.holds ≠ some j → sh.Same sh' j
  alone : ∀ j, pc'.holds = some j → pc.holds = some j ∨ ∀ q, Held sh q → q.holds ≠ some j

theorem Moved.still {pc pc' : Pc} (h : sh.Inv) (hheld : Held sh pc') (hh : pc'.holds = none ∨ pc'.holds = pc.holds) :
    Moved sh pc sh pc' := by
  refine ⟨h, .refl sh, hheld, fun j _ _ => .refl sh j, ?_⟩
  intro j hj
  rcases hh with hn | heq
  · rw [hn] at hj
    cases hj
  · exact .inl (heq ▸ hj)

theorem Moved.put {k : Key} {pc pc' : Pc} (hinv : (sh.put i k).Inv) (hle : (sh.key i).gen ≤ k.gen) (hheld : Held (sh.put i k) pc')
    (hpc : pc.holds = some i) (hpc' : pc'.holds = none ∨ pc'.holds = some i) : Moved sh pc (sh.put i k) pc' := by
  refine ⟨hinv, le_put hle, hheld, ?_, ?_⟩
  · intro j hj _
    refine same_put ?_
    rintro rfl
    exact hj hpc
  · intro j hj
    rcases hpc' with hn | heq
    · rw [hn] at hj
      cases hj
    · exact .inl (by rw [hpc, ← heq, hj])

theorem moved_claim {pc : Pc} (h : sh.Inv) (hi : i < threadKeys) (hfree : (sh.key i).state = .free)
    (hlt : sh.creates i + 1 < keyGenerations) : Moved sh pc (sh.claim i) (.claimed i dtor) := by
  have hle : sh.Le (sh.put i { sh.key i with state := .claimed }) := le_put le_rfl
  refine ⟨h.claim hfree hlt, ⟨hle.gen, hle.made, hle.given, hle.deleted⟩, ?_, ?_, ?_⟩
  · refine ⟨⟨hi, ?_⟩, ?_⟩
    · simp [Shared.claim]
    · simp [Shared.claim, h.gen_eq i (by simp [hfree])]
  · intro j _ hj
    have hne : j ≠ i := by
      rintro rfl
      exact hj rfl
    have hs : sh.Same (sh.put i { sh.key i with state := .claimed }) j := same_put hne
    exact ⟨hs.key, update_of_ne hne _ _, hs.made, hs.given, hs.deleted⟩
  · intro j hj
    cases hj
    right
    intro q hq hheld
    exact hq.not_free hheld hfree

theorem moved_storeGen {gen : Nat} (h : sh.Inv) (hh : Held sh (.advance i dtor gen)) :
    Moved sh (.advance i dtor gen) (sh.storeGen i ((gen + 1) % keyGenerations)) (.store i dtor) := by
  obtain ⟨hb, hc, rfl⟩ := hh
  -- Fewer creates than generations, so the generation does not wrap.
  have hmod : ((sh.key i).gen + 1) % keyGenerations = (sh.key i).gen + 1 := Nat.mod_eq_of_lt (by have := h.creates_lt i; omega)
  rw [hmod]
  refine Moved.put (h.storeGen hb (Nat.lt_succ_self _)) (Nat.le_succ _) ⟨⟨hb.1, ?_⟩, ?_, ?_⟩ rfl (.inr rfl)
  · simpa using hb.2
  · simpa using hc
  · simp only [put_self]
    by_contra hm
    obtain ⟨d, hm⟩ := Option.ne_none_iff_exists'.1 hm
    have hle := h.made_le _ d hm
    rw [genOf_keyOf hb.1, indexOf_keyOf hb.1] at hle
    omega

theorem moved_storeDtor (h : sh.Inv) (hh : Held sh (.store i dtor)) : Moved sh (.store i dtor) (sh.storeDtor i dtor)
    (.publish i dtor) := by
  obtain ⟨hb, hc, hm⟩ := hh
  refine Moved.put (h.storeDtor hb hm) le_rfl ⟨⟨hb.1, ?_⟩, ?_, ?_, ?_⟩ rfl (.inr rfl)
  · simpa using hb.2
  · simpa using hc
  · simpa using hm
  · simp

theorem moved_publish (h : sh.Inv) (hh : Held sh (.publish i dtor)) : Moved sh (.publish i dtor) (sh.publish i dtor)
    (.name i dtor) := by
  obtain ⟨hb, hc, hm, hd⟩ := hh
  have hle : sh.Le (sh.put i { sh.key i with state := .used }) := le_put le_rfl
  have hother : ∀ key, key ≠ keyOf i (sh.key i).gen → (sh.publish i dtor).made key = sh.made key :=
    fun key hne => update_of_ne hne _ _
  refine ⟨h.publish hb hc hm hd, ⟨hle.gen, ?_, hle.given, hle.deleted⟩, ⟨hb.1, ?_, ?_, ?_⟩, ?_, fun j hj => .inl hj⟩
  · intro key d hk
    rw [hother key]
    · exact hk
    · rintro rfl
      rw [hm] at hk
      cases hk
  · simp [Shared.publish]
  · simp [Shared.publish]
  · intro hg
    have hgen : ((sh.publish i dtor).key i).gen = (sh.key i).gen := by simp [Shared.publish]
    rw [hgen] at hg
    obtain ⟨p, hp, hpk⟩ := List.mem_map.1 hg
    have hmade := h.handed_made p hp
    rw [hpk, hm] at hmade
    cases hmade
  · intro j hj _
    have hne : j ≠ i := by
      rintro rfl
      exact hj rfl
    have hs : sh.Same (sh.put i { sh.key i with state := .used }) j := same_put hne
    refine ⟨hs.key, hs.creates, ?_, hs.given, hs.deleted⟩
    intro key hk
    refine hother key ?_
    rintro rfl
    rw [indexOf_keyOf hb.1] at hk
    exact hne hk.symm

theorem moved_hand (h : sh.Inv) (hh : Held sh (.name i dtor)) :
    Moved sh (.name i dtor) (sh.hand (keyOf i (sh.key i).gen) dtor) (.created (keyOf i (sh.key i).gen) dtor) := by
  obtain ⟨hi, hu, hm, hn⟩ := hh
  refine ⟨h.hand hi hu hm hn, ⟨fun _ => le_rfl, fun _ _ h => h, fun _ hg => List.mem_cons_of_mem _ hg, fun _ h => h⟩,
    trivial, ?_, ?_⟩
  · intro j hj _
    refine ⟨rfl, rfl, fun _ _ => rfl, ?_, fun _ _ => rfl⟩
    intro key hk
    have hne : key ≠ keyOf i (sh.key i).gen := by
      rintro rfl
      rw [indexOf_keyOf hi] at hk
      exact hj (by rw [hk]; rfl)
    constructor
    · intro hg
      exact (List.mem_cons.1 hg).resolve_left hne
    · intro hg
      exact List.mem_cons_of_mem _ hg
  · intro j hj
    cases hj

theorem moved_beginDelete {pc : Pc} (h : sh.Inv) (hg : sh.Given key) (hd : sh.deleted key = false) :
    Moved sh pc (sh.beginDelete key) (.live .delete key) := by
  refine ⟨h.beginDelete key, ⟨fun _ => le_rfl, fun _ _ h => h, fun _ h => h, ?_⟩, ⟨hg, ?_, h.current key hg hd⟩, ?_, ?_⟩
  · intro k hk
    by_cases hkk : k = key
    · subst hkk
      simp [Shared.beginDelete]
    · simpa [Shared.beginDelete, update_of_ne hkk] using hk
  · simp [Shared.beginDelete]
  · intro j _ hj
    refine ⟨rfl, rfl, fun _ _ => rfl, fun _ _ => Iff.rfl, ?_⟩
    intro k hk
    refine update_of_ne ?_ _ _
    rintro rfl
    exact hj (by rw [← hk]; rfl)
  · intro j hj
    cases hj
    right
    intro q hq hheld
    have := hq.deleted h hheld hg
    rw [hd] at this
    cases this

theorem moved_release (h : sh.Inv) (hh : Deleting sh key) : Moved sh (.deleting key) (sh.release (indexOf key))
    (.answered true) :=
  Moved.put (h.release hh) le_rfl trivial rfl (.inl rfl)

end Moves

end KickOS.Keys
