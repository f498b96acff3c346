import KickOS.Walk.Needed

/-! What `map_into` does to a range nothing covers: it maps a first part of it, all of it where the frames suffice, and takes as
many frames as the estimate says and the pool has. -/

namespace KickOS
namespace Walk

open Lib.Radix
open Function (update update_apply update_of_ne update_self)

variable {b h va pages pa : Nat} {attrs : BitVec 64} {pool : Pool} {e : Edit}

/-! ### The pages under one entry -/

theorem pagesUnder_le (b va h pages : Nat) : pagesUnder b va h pages ≤ pages := min_le_right ..

theorem to_next (b va h : Nat) : (va + span b h) / span b h * span b h - va = span b h - va % span b h := by
  have hpos := span_pos b h
  have hlt := Nat.mod_lt va hpos
  rw [Nat.add_div_right va hpos, Nat.succ_mul]
  have := Nat.div_add_mod' va (span b h)
  omega

theorem pagesUnder_pos (hp : pages ≠ 0) : 0 < pagesUnder b va h pages := by
  unfold pagesUnder
  rw [to_next]
  have hlt := Nat.mod_lt va (span_pos b h)
  omega

theorem div_of_lt_pagesUnder {p : Nat} (hlo : va ≤ p) (hhi : p < va + pagesUnder b va h pages) :
    p / span b h = va / span b h := by
  have hle : pagesUnder b va h pages ≤ span b h - va % span b h := by
    unfold pagesUnder
    rw [to_next]
    exact min_le_left ..
  have hdm := Nat.div_add_mod' va (span b h)
  have hlt := Nat.mod_lt va (span_pos b h)
  refine Nat.div_eq_of_lt_le ?_ ?_
  · omega
  · rw [Nat.succ_mul]
    omega

theorem pagesUnder_boundary (hlt : pagesUnder b va h pages < pages) :
    va + pagesUnder b va h pages = (va / span b h + 1) * span b h := by
  have hx : pagesUnder b va h pages = span b h - va % span b h := by
    unfold pagesUnder at *
    rw [to_next] at *
    omega
  have hdm := Nat.div_add_mod' va (span b h)
  have hm := Nat.mod_lt va (span_pos b h)
  rw [hx, Nat.succ_mul]
  omega

/-- The pages of a range are in one table of a height. -/
def Within (b h va pages : Nat) : Prop := ∀ p, va ≤ p → p < va + pages → p / span b (h + 1) = va / span b (h + 1)

/-- Nothing is found at a page of the range. -/
def Bare (h : Nat) (t : Table b Leaf h) (va pages : Nat) : Prop := ∀ p, va ≤ p → p < va + pages → walk h t p = .none

/-! ### The specification -/

structure MapSpec (attrs : BitVec 64) {h : Nat} (t : Table b Leaf h) (va pages pa : Nat) (pool : Pool) (e : Edit)
    (r : Mapped (Table b Leaf h)) : Prop where
  adds : Adds h t r.table
  /-- A first part of the range is mapped, and no other page changes. -/
  finds : ∃ done ≤ pages, (r.ok = true → done = pages) ∧ ∀ p, p / span b (h + 1) = va / span b (h + 1) →
    walk h r.table p = if va ≤ p ∧ p < va + done then .leaf ⟨attrs, pa + (p - va)⟩ else walk h t p
  takes : ∃ new : List Nat, frames h r.table = frames h t + (new : Multiset Nat) ∧ pool.Takes r.pool new ∧
    r.edit = { e with tables := e.tables + BitVec.ofNat 32 new.length } ∧ new.length = min (tablesNeeded t va pages) pool.free
  ok : r.ok = true ↔ tablesNeeded t va pages ≤ pool.free
  clean : ∀ P, (∀ p, va ≤ p → p < va + pages → p ∈ P) → Clean h t P → Clean h r.table P
  noEmpty : r.ok = true → NoEmpty h t → NoEmpty h r.table

theorem MapSpec.nil (t : Table b Leaf h) : MapSpec attrs t va 0 pa pool e ⟨t, pool, e, true⟩ where
  adds := .refl
  finds := ⟨0, le_rfl, fun _ => rfl, fun p _ => by rw [if_neg (by omega)]⟩
  takes := ⟨[], by simp, .refl pool, by simp, by simp [tablesNeeded]⟩
  ok := by simp [tablesNeeded]
  clean _ _ hc := hc
  noEmpty _ hn := hn

theorem MapSpec.append {t : Table b Leaf (h + 1)} {here rest : Nat} {r r' : Mapped (Table b Leaf (h + 1))}
    (h1 : MapSpec attrs t va here pa pool e r) (hok : r.ok = true)
    (h2 : MapSpec attrs r.table (va + here) rest (pa + here) r.pool r.edit r') (h0 : 0 < here) (hd : span b (h + 1) ∣ va + here)
    (hsame : (va + here) / span b (h + 2) = va / span b (h + 2))
    (hneed : tablesNeeded r.table (va + here) rest = tablesNeeded t (va + here) rest) :
    MapSpec attrs t va (here + rest) pa pool e r' := by
  have htot : tablesNeeded t va (here + rest) = tablesNeeded t va here + tablesNeeded t (va + here) rest :=
    tablesNeeded_append (fun _ => hd) h0
  obtain ⟨new, hf, htk, he, hlen⟩ := h1.takes
  obtain ⟨new', hf', htk', he', hlen'⟩ := h2.takes
  have hfree := htk.free
  have hfit := h1.ok.1 hok
  refine ⟨h1.adds.trans h2.adds, ?_, ⟨new ++ new', ?_, htk.trans htk', ?_, ?_⟩, ?_, fun P hP hc => ?_, fun hr hn => ?_⟩
  · obtain ⟨done, hle, hall, hw⟩ := h1.finds
    obtain ⟨done', hle', hall', hw'⟩ := h2.finds
    obtain rfl := hall hok
    refine ⟨done + done', by omega, fun hr => by rw [hall' hr], fun p hp => ?_⟩
    rw [hw' p (by rw [hsame]; exact hp), hw p hp]
    by_cases hin : va + done ≤ p ∧ p < va + done + done'
    · rw [if_pos hin, if_pos (by omega), show pa + done + (p - (va + done)) = pa + (p - va) by omega]
    · rw [if_neg hin]
      by_cases hin' : va ≤ p ∧ p < va + done
      · rw [if_pos hin', if_pos (by omega)]
      · rw [if_neg hin', if_neg (by omega)]
  · rw [hf', hf, add_assoc, Multiset.coe_add]
  · rw [he', he, List.length_append]
    simp only [BitVec.ofNat_add, BitVec.add_assoc]
  · rw [List.length_append, hlen, hlen', hneed, htot]
    omega
  · rw [h2.ok, hneed, htot]
    omega
  · exact h2.clean P (fun p hlo hhi => hP p (by omega) (by omega)) (h1.clean P (fun p hlo hhi => hP p hlo (by omega)) hc)
  · exact h2.noEmpty hr (h1.noEmpty hok hn)

theorem MapSpec.stop {t : Table b Leaf (h + 1)} {here rest : Nat} {r : Mapped (Table b Leaf (h + 1))}
    (h1 : MapSpec attrs t va here pa pool e r) (hok : r.ok = false) (h0 : 0 < here) (hd : rest ≠ 0 → span b (h + 1) ∣ va + here) :
    MapSpec attrs t va (here + rest) pa pool e r := by
  have htot : tablesNeeded t va (here + rest) = tablesNeeded t va here + tablesNeeded t (va + here) rest :=
    tablesNeeded_append hd h0
  have hshort : ¬ tablesNeeded t va here ≤ pool.free := fun hc => by
    rw [h1.ok.2 hc] at hok
    cases hok
  obtain ⟨new, hf, htk, he, hlen⟩ := h1.takes
  obtain ⟨done, hle, -, hw⟩ := h1.finds
  have hnot : ¬ r.ok = true := by
    rw [hok]
    exact Bool.false_ne_true
  refine ⟨h1.adds, ⟨done, by omega, fun hr => absurd hr hnot, hw⟩, ⟨new, hf, htk, he, ?_⟩, ?_, fun P hP hc => ?_,
    fun hr => absurd hr hnot⟩
  · rw [hlen, htot]
    omega
  · rw [htot]
    exact ⟨fun hr => absurd hr hnot, fun hc => absurd (by omega) hshort⟩
  · exact h1.clean P (fun p hlo hhi => hP p hlo (by omega)) hc

theorem MapSpec.enter {t : Table b Leaf (h + 1)} {c : Table b Leaf h} {f : Nat} {first : List Nat} {pool' : Pool} {e' : Edit}
    {r : Mapped (Table b Leaf h)}
    (hc : (t (index b (h + 1) va) = .table f c ∧ first = []) ∨ (t (index b (h + 1) va) = .empty ∧ c = zero h ∧ first = [f]))
    (hp : pool.Takes pool' first) (he : e' = { e with tables := e.tables + BitVec.ofNat 32 first.length })
    (h0 : pages ≠ 0) (hone : Within b h va pages) (hin : MapSpec attrs c va pages pa pool' e' r) :
    MapSpec attrs t va pages pa pool e ⟨update t (index b (h + 1) va) (.table f r.table), r.pool, r.edit, r.ok⟩ := by
  have hlast : (va + (pages - 1)) / span b (h + 1) = va / span b (h + 1) := hone _ (by omega) (by omega)
  have hneed : tablesNeeded t va pages = first.length + tablesNeeded c va pages := by
    rw [tablesNeeded_slot (c := c) h0 hlast]
    · rcases hc with ⟨hs, rfl⟩ | ⟨hs, -, rfl⟩
      · rw [hs]
        rfl
      · rw [hs]
        rfl
    · rcases hc with ⟨hs, -⟩ | ⟨hs, hz, -⟩
      · exact .inl ⟨f, hs⟩
      · exact .inr ⟨hs, hz⟩
  have hbelow : ∀ p, index b (h + 1) p = index b (h + 1) va → walk (h + 1) t p = walk h c p := by
    intro p hi
    rcases hc with ⟨hs, -⟩ | ⟨hs, rfl, -⟩
    · exact walk_of_slot (by rw [hi]; exact hs)
    · rw [walk_of_empty (by rw [hi]; exact hs), (blank_zero h).walk]
  have hfree := hp.free
  obtain ⟨new, hf, htk, hed, hlen⟩ := hin.takes
  obtain ⟨done, hle, hall, hw⟩ := hin.finds
  refine ⟨fun i => ?_, ⟨done, hle, hall, fun p hp => ?_⟩, ⟨first ++ new, ?_, hp.trans htk, ?_, ?_⟩, ?_,
    fun P hP hcl i g d hs => ?_, fun hr hn i g d hs => ?_⟩
  · rcases eq_or_ne i (index b (h + 1) va) with rfl | hi
    · rcases hc with ⟨hs, -⟩ | ⟨hs, -, -⟩
      · exact .inr (.inr ⟨f, c, r.table, hs, update_self .., hin.adds⟩)
      · exact .inr (.inl hs)
    · exact .inl (update_of_ne hi _ _)
  · dsimp only
    by_cases hi : index b (h + 1) p = index b (h + 1) va
    · rw [walk_of_slot (by rw [hi]; exact update_self ..), hw p ((index_eq_iff hp).1 hi), hbelow p hi]
    · rw [walk_of_ne hi, if_neg]
      rintro ⟨hlo, hhi⟩
      exact hi (index_congr (hone p hlo (by omega)))
  · have hu := frames_update t (index b (h + 1) va) (.table f r.table)
    have hz : frames h (zero h : Table b Leaf h) = 0 := frames_zero h
    rcases hc with ⟨hs, rfl⟩ | ⟨hs, rfl, rfl⟩
    · rw [hs] at hu
      simp only [slotFrames, hf] at hu
      refine add_right_cancel (hu.trans ?_)
      rw [List.nil_append, add_assoc, add_comm (new : Multiset Nat), Multiset.cons_add]
    · rw [hs] at hu
      simp only [slotFrames, hf, hz, zero_add, add_zero] at hu
      exact hu
  · rw [hed, he, List.length_append]
    simp only [BitVec.ofNat_add, BitVec.add_assoc]
  · rw [List.length_append, hlen, hneed]
    omega
  · rw [hneed]
    refine hin.ok.trans ?_
    omega
  · dsimp only at hs
    rw [update_apply] at hs
    split_ifs at hs with hi
    · cases hs
      refine .inr ⟨⟨va, hP va le_rfl (by omega), hi.symm⟩, ?_⟩
      subst hi
      refine hin.clean _ (fun p hlo hhi => ⟨hP p hlo hhi, index_congr (hone p hlo hhi)⟩) ?_
      rcases hc with ⟨hs, -⟩ | ⟨-, rfl, -⟩
      · rcases hcl _ _ _ hs with hg | hg
        · exact hg.2.clean _
        · exact hg.2
      · exact (noEmpty_zero h).clean _
    · exact hcl i g d hs
  · dsimp only at hs
    rw [update_apply] at hs
    split_ifs at hs with hi
    · cases hs
      refine ⟨fun hem => ?_, hin.noEmpty hr ?_⟩
      · have hva := hw va rfl
        rw [hem.walk, if_pos ⟨le_rfl, by rw [hall hr]; omega⟩] at hva
        cases hva
      · rcases hc with ⟨hs, -⟩ | ⟨-, rfl, -⟩
        · exact (hn _ _ _ hs).2
        · exact noEmpty_zero h
    · exact hn i g d hs

/-! ### The loops -/

theorem exists_page (b h va : Nat) (i : Fin (2 ^ b)) : ∃ p, p / span b (h + 1) = va / span b (h + 1) ∧ index b h p = i := by
  have hpos := span_pos b h
  have hlt : (i : Nat) * span b h < span b (h + 1) := by
    rw [span_succ, Nat.mul_comm (span b h)]
    exact Nat.mul_lt_mul_of_pos_right i.isLt hpos
  refine ⟨va / span b (h + 1) * span b (h + 1) + i * span b h, ?_, Fin.ext ?_⟩
  · rw [Nat.mul_comm, Nat.mul_add_div (span_pos b (h + 1)), Nat.div_eq_of_lt hlt, Nat.add_zero]
  · show (va / span b (h + 1) * span b (h + 1) + i * span b h) / span b h % 2 ^ b = i
    rw [span_succ, Nat.mul_comm (span b h) (2 ^ b), ← Nat.mul_assoc, ← Nat.add_mul, Nat.mul_div_cancel _ hpos,
      Nat.mul_comm _ (2 ^ b), Nat.mul_add_mod, Nat.mod_eq_of_lt i.isLt]

theorem leafLoop_apply {n : Nat} {t : Table b Leaf 0} (hone : Within b 0 va n) {p : Nat}
    (hp : p / span b 1 = va / span b 1) :
    leafLoop attrs n t va pa (index b 0 p) = if va ≤ p ∧ p < va + n then some ⟨attrs, pa + (p - va)⟩ else t (index b 0 p) := by
  induction n generalizing t va pa with
  | zero => rw [leafLoop, if_neg (by omega)]
  | succ n ih =>
    rw [leafLoop]
    rcases Nat.eq_zero_or_pos n with rfl | hn
    · rw [leafLoop, update_apply]
      have hi : index b 0 p = index b 0 va ↔ p = va := by
        rw [index_eq_iff hp, span_zero, Nat.div_one, Nat.div_one]
      by_cases hpv : p = va
      · rw [if_pos (hi.2 hpv), if_pos (by omega), hpv, Nat.sub_self, Nat.add_zero]
      · rw [if_neg fun hc => hpv (hi.1 hc), if_neg (by omega)]
    · have hnext : (va + 1) / span b 1 = va / span b 1 := hone (va + 1) (by omega) (by omega)
      rw [ih (fun q hlo hhi => by rw [hnext]; exact hone q (by omega) (by omega)) (by rw [hnext]; exact hp), update_apply]
      have hi : index b 0 p = index b 0 va ↔ p = va := by
        rw [index_eq_iff hp, span_zero, Nat.div_one, Nat.div_one]
      by_cases hpv : p = va
      · rw [if_neg (by omega), if_pos (hi.2 hpv), if_pos (by omega), hpv, Nat.sub_self, Nat.add_zero]
      · by_cases hin : va + 1 ≤ p ∧ p < va + 1 + n
        · rw [if_pos hin, if_pos (by omega), show pa + 1 + (p - (va + 1)) = pa + (p - va) by omega]
        · rw [if_neg hin, if_neg fun hc => hpv (hi.1 hc), if_neg (by omega)]

theorem leafLoop_spec {t : Table b Leaf 0} (hone : Within b 0 va pages) (hbare : Bare 0 t va pages) :
    MapSpec attrs t va pages pa pool e ⟨leafLoop attrs pages t va pa, pool, e, true⟩ := by
  have hzero : tablesNeeded t va pages = 0 := by
    unfold tablesNeeded
    split_ifs <;> rfl
  refine ⟨fun i => ?_, ⟨pages, le_rfl, fun _ => rfl, fun p hp => ?_⟩, ⟨[], rfl, .refl pool, by simp, by simp [hzero]⟩, ?_,
    fun _ _ _ => trivial, fun _ _ => trivial⟩
  · obtain ⟨p, hp, rfl⟩ := exists_page b 0 va i
    dsimp only
    rw [leafLoop_apply hone hp]
    split_ifs with hin
    · right
      have hw := hbare p hin.1 hin.2
      unfold walk at hw
      rcases ht : t (index b 0 p) with _ | l
      · rfl
      · rw [ht] at hw
        cases hw
    · exact .inl rfl
  · unfold walk
    dsimp only
    rw [leafLoop_apply hone hp]
    split_ifs <;> rfl
  · simp [hzero]

/-- The tables below are mapped as specified. -/
def Enters (attrs : BitVec 64) (into : Table b Leaf h → Nat → Nat → Nat → Pool → Edit → Mapped (Table b Leaf h)) : Prop :=
  ∀ c va pages pa pool e, Within b h va pages → Bare h c va pages → MapSpec attrs c va pages pa pool e (into c va pages pa pool e)

variable {into : Table b Leaf h → Nat → Nat → Nat → Pool → Edit → Mapped (Table b Leaf h)}

/-- The table the entry of a page leads to, a new one where it led to none. -/
def entered (t : Table b Leaf (h + 1)) (va : Nat) (pool : Pool) (e : Edit) : Option (Nat × Table b Leaf h × Pool × Edit) :=
  match t (index b (h + 1) va) with
  | .empty => pool.alloc.map fun x => (x.1, zero h, x.2, { e with tables := e.tables + 1 })
  | .table f c => some (f, c, pool, e)
  | .block _ => none

/-- One pass of the loop, through a table entered: `here` pages below it, and `left` pages after. -/
def pass (into : Table b Leaf h → Nat → Nat → Nat → Pool → Edit → Mapped (Table b Leaf h)) (n : Nat) (t : Table b Leaf (h + 1))
    (va here left pa : Nat) (x : Nat × Table b Leaf h × Pool × Edit) : Mapped (Table b Leaf (h + 1)) :=
  let r := into x.2.1 va here pa x.2.2.1 x.2.2.2
  if r.ok then mapLoop into n (update t (index b (h + 1) va) (.table x.1 r.table)) (va + here) left (pa + here) r.pool r.edit
  else ⟨update t (index b (h + 1) va) (.table x.1 r.table), r.pool, r.edit, false⟩

theorem mapLoop_zero (n : Nat) (t : Table b Leaf (h + 1)) : mapLoop into n t va 0 pa pool e = ⟨t, pool, e, true⟩ := by
  cases n with
  | zero => rfl
  | succ n => exact if_pos rfl

theorem mapLoop_succ (n : Nat) (t : Table b Leaf (h + 1)) (h0 : pages ≠ 0) : mapLoop into (n + 1) t va pages pa pool e =
    (entered t va pool e).elim ⟨t, pool, e, false⟩
      (pass into n t va (pagesUnder b va (h + 1) pages) (pages - pagesUnder b va (h + 1) pages) pa) := by
  refine (if_neg h0).trans ?_
  unfold entered
  dsimp only
  rcases t (index b (h + 1) va) with _ | l | ⟨f, c⟩
  · rcases pool.alloc with _ | x
    · rfl
    · rfl
  · rfl
  · rfl

/-- The table entered is the one of the entry, or a new one, and the frame of the new one is all it took. -/
theorem entered_some {t : Table b Leaf (h + 1)} {x : Nat × Table b Leaf h × Pool × Edit} (hx : entered t va pool e = some x) :
    ∃ first : List Nat, ((t (index b (h + 1) va) = .table x.1 x.2.1 ∧ first = []) ∨
        (t (index b (h + 1) va) = .empty ∧ x.2.1 = zero h ∧ first = [x.1])) ∧
      pool.Takes x.2.2.1 first ∧ x.2.2.2 = { e with tables := e.tables + BitVec.ofNat 32 first.length } := by
  unfold entered at hx
  rcases hs : t (index b (h + 1) va) with _ | l | ⟨f, c⟩
  · rw [hs] at hx
    obtain ⟨y, hy, rfl⟩ := Option.map_eq_some_iff.1 hx
    exact ⟨[y.1], .inr ⟨rfl, rfl, rfl⟩, Pool.takes_of_alloc hy, rfl⟩
  · rw [hs] at hx
    cases hx
  · rw [hs] at hx
    cases hx
    exact ⟨[], .inl ⟨rfl, rfl⟩, .refl pool, by simp⟩

theorem entered_none {t : Table b Leaf (h + 1)} (hx : entered t va pool e = none) (hw : walk (h + 1) t va = .none) :
    t (index b (h + 1) va) = .empty ∧ pool.free = 0 := by
  unfold entered at hx
  rcases hs : t (index b (h + 1) va) with _ | l | ⟨f, c⟩
  · rw [hs] at hx
    exact ⟨rfl, Pool.alloc_eq_none.1 (Option.map_eq_none_iff.1 hx)⟩
  · rw [walk, hs] at hw
    cases hw
  · rw [hs] at hx
    cases hx

theorem rest_ne {p here : Nat} (hone : Within b (h + 1) va pages) (hb : va + here = (va / span b (h + 1) + 1) * span b (h + 1))
    (hlo : va + here ≤ p) (hhi : p < va + pages) : index b (h + 1) p ≠ index b (h + 1) va := by
  intro hi
  have hd := (index_eq_iff (hone p (by omega) hhi)).1 hi
  have hge : va / span b (h + 1) + 1 ≤ p / span b (h + 1) := by
    rw [Nat.le_div_iff_mul_le (span_pos b (h + 1)), ← hb]
    exact hlo
  omega

theorem MapSpec.none {t : Table b Leaf (h + 1)} {here : Nat} (hs : t (index b (h + 1) va) = .empty) (hfree : pool.free = 0)
    (hpos : 0 < here) (hle : here ≤ pages) (hone : Within b h va here) (hd : pages - here ≠ 0 → span b (h + 1) ∣ va + here) :
    MapSpec attrs t va pages pa pool e ⟨t, pool, e, false⟩ := by
  have hlast : (va + (here - 1)) / span b (h + 1) = va / span b (h + 1) := hone _ (by omega) (by omega)
  have hslot : tablesNeeded t va here = 1 + tablesNeeded (zero h : Table b Leaf h) va here := by
    rw [tablesNeeded_slot (c := zero h) hpos.ne' hlast (.inr ⟨hs, rfl⟩), hs]
    rfl
  have hneed : tablesNeeded t va pages = tablesNeeded t va here + tablesNeeded t (va + here) (pages - here) := by
    rw [← tablesNeeded_append hd hpos, Nat.add_sub_cancel' hle]
  have hnot : ¬ false = true := Bool.false_ne_true
  refine ⟨.refl, ⟨0, Nat.zero_le _, fun hr => absurd hr hnot, fun p _ => ?_⟩, ⟨[], by simp, .refl pool, by simp, by simp [hfree]⟩,
    ⟨fun hr => absurd hr hnot, fun hc => ?_⟩, fun _ _ hc => hc, fun hr => absurd hr hnot⟩
  · rw [if_neg (by omega)]
  · omega

theorem tablesNeeded_rest {t : Table b Leaf (h + 1)} {s : Slot (Table b Leaf h) Leaf} {here : Nat}
    (hone : Within b (h + 1) va pages) (hb : va + here = (va / span b (h + 1) + 1) * span b (h + 1)) (hpos : 0 < here)
    (hlt : here < pages) : tablesNeeded (h := h + 1) (update t (index b (h + 1) va) s) (va + here) (pages - here) =
    tablesNeeded t (va + here) (pages - here) := by
  refine tablesNeeded_congr fun i ⟨p, hpi, hplo, hphi⟩ => update_of_ne ?_ _ _
  rintro rfl
  have h1 : va / span b (h + 1) + 1 ≤ p / span b (h + 1) := by
    refine le_trans ?_ hplo
    rw [Nat.le_div_iff_mul_le (span_pos b (h + 1)), ← hb]
  -- a page of an entry the rest reaches stands in the table of the range
  have h2 : p / span b (h + 2) = va / span b (h + 2) := by
    have hfirst : (va + here) / span b (h + 2) = va / span b (h + 2) := hone _ (by omega) (by omega)
    have hlast : (va + here + (pages - here - 1)) / span b (h + 2) = va / span b (h + 2) := hone _ (by omega) (by omega)
    rw [div_span_succ b (h + 1) p]
    rw [div_span_succ b (h + 1)] at hlast hfirst
    refine le_antisymm ?_ ?_
    · rw [← hlast]
      exact Nat.div_le_div_right hphi
    · rw [← hfirst]
      exact Nat.div_le_div_right hplo
  have h3 := (index_eq_iff h2).1 hpi
  omega

theorem mapLoop_spec (hinto : Enters attrs into) (n : Nat) {t : Table b Leaf (h + 1)} (hn : pages ≤ n)
    (hone : Within b (h + 1) va pages) (hbare : Bare (h + 1) t va pages) :
    MapSpec attrs t va pages pa pool e (mapLoop into n t va pages pa pool e) := by
  induction n generalizing t va pages pa pool e with
  | zero =>
    obtain rfl : pages = 0 := by omega
    exact .nil t
  | succ n ih =>
    by_cases h0 : pages = 0
    · rw [h0, mapLoop_zero]
      exact .nil t
    rw [mapLoop_succ n t h0]
    obtain ⟨here, hhere⟩ : ∃ n, pagesUnder b va (h + 1) pages = n := ⟨_, rfl⟩
    rw [hhere]
    have hpos : 0 < here := hhere ▸ pagesUnder_pos h0
    have hle : here ≤ pages := hhere ▸ pagesUnder_le ..
    have hone' : Within b h va here := fun p hlo hhi => div_of_lt_pagesUnder hlo (hhere ▸ hhi)
    have hbound : here < pages → va + here = (va / span b (h + 1) + 1) * span b (h + 1) := fun hlt =>
      hhere ▸ pagesUnder_boundary (hhere ▸ hlt)
    have hd : pages - here ≠ 0 → span b (h + 1) ∣ va + here := fun hne => by
      rw [hbound (by omega)]
      exact Dvd.intro_left _ rfl
    rcases hx : entered t va pool e with _ | x
    · obtain ⟨hs, hfree⟩ := entered_none hx (hbare va le_rfl (by omega))
      exact .none hs hfree hpos hle hone' hd
    obtain ⟨first, hc, hp, he⟩ := entered_some hx
    have hcbare : Bare h x.2.1 va here := fun p hlo hhi => by
      rcases hc with ⟨hs, -⟩ | ⟨-, hz, -⟩
      · rw [← walk_of_slot (by rw [index_congr (hone' p hlo hhi)]; exact hs)]
        exact hbare p hlo (by omega)
      · rw [hz]
        exact (blank_zero h).walk p
    have hslot := MapSpec.enter hc hp he hpos.ne' hone' (hinto x.2.1 va here pa x.2.2.1 x.2.2.2 hone' hcbare)
    show MapSpec attrs t va pages pa pool e (pass into n t va here (pages - here) pa x)
    unfold pass
    dsimp only
    generalize into x.2.1 va here pa x.2.2.1 x.2.2.2 = r at hslot ⊢
    split_ifs with hok
    · by_cases hrest : pages - here = 0
      · obtain rfl : pages = here := by omega
        rwa [hrest, mapLoop_zero, ← hok]
      · have hlt : here < pages := by omega
        have hnext : (va + here) / span b (h + 2) = va / span b (h + 2) := hone _ (by omega) (by omega)
        have hih : MapSpec attrs (update t (index b (h + 1) va) (.table x.1 r.table)) (va + here) (pages - here) (pa + here)
            r.pool r.edit (mapLoop into n (update t (index b (h + 1) va) (.table x.1 r.table)) (va + here) (pages - here)
              (pa + here) r.pool r.edit) := by
          refine ih (by omega) (fun p hlo hhi => ?_) fun p hlo hhi => ?_
          · rw [hnext]
            exact hone p (by omega) (by omega)
          · rw [walk_of_ne (rest_ne hone (hbound hlt) hlo (by omega))]
            exact hbare p (by omega) (by omega)
        have happ := hslot.append hok hih hpos (hd hrest) hnext (tablesNeeded_rest hone (hbound hlt) hpos hlt)
        rwa [Nat.add_sub_cancel' hle] at happ
    · have hfalse : r.ok = false := Bool.eq_false_iff.2 hok
      rw [hfalse] at hslot
      have hstop := hslot.stop rfl hpos hd
      rwa [Nat.add_sub_cancel' hle] at hstop

theorem mapInto_spec (attrs : BitVec 64) (h : Nat) : Enters attrs (mapInto attrs h (b := b)) := by
  induction h with
  | zero => exact fun c va pages pa pool e hone hbare => leafLoop_spec hone hbare
  | succ h ih => exact fun c va pages pa pool e hone hbare => mapLoop_spec ih pages le_rfl hone hbare

/-! ### One entry of the range -/

theorem mapLoop_off (n : Nat) {t : Table b Leaf (h + 1)} {i : Fin (2 ^ b)}
    (hi : ∀ p, va ≤ p → p < va + pages → index b (h + 1) p ≠ i) : (mapLoop into n t va pages pa pool e).table i = t i := by
  induction n generalizing t va pages pa pool e with
  | zero => rfl
  | succ n ih =>
    by_cases h0 : pages = 0
    · rw [h0, mapLoop_zero]
    rw [mapLoop_succ n t h0]
    have hle := pagesUnder_le b va (h + 1) pages
    have hne : i ≠ index b (h + 1) va := (hi va le_rfl (by omega)).symm
    rcases entered t va pool e with _ | x
    · rfl
    show (pass into n t va (pagesUnder b va (h + 1) pages) (pages - pagesUnder b va (h + 1) pages) pa x).table i = t i
    unfold pass
    dsimp only
    split_ifs
    · rw [ih fun p hlo hhi => hi p (by omega) (by omega), update_of_ne hne]
    · exact update_of_ne hne _ _

theorem mapLoop_fuel (n m : Nat) {t : Table b Leaf (h + 1)} (hn : pages ≤ n) (hm : pages ≤ m) :
    mapLoop into n t va pages pa pool e = mapLoop into m t va pages pa pool e := by
  induction n generalizing m t va pages pa pool e with
  | zero =>
    obtain rfl : pages = 0 := by omega
    rw [mapLoop_zero, mapLoop_zero]
  | succ n ih =>
    by_cases h0 : pages = 0
    · rw [h0, mapLoop_zero, mapLoop_zero]
    obtain ⟨m, rfl⟩ : ∃ x, m = x + 1 := ⟨m - 1, by omega⟩
    have hpos : 0 < pagesUnder b va (h + 1) pages := pagesUnder_pos h0
    rw [mapLoop_succ n t h0, mapLoop_succ m t h0]
    rcases entered t va pool e with _ | x
    · rfl
    show pass into n t va _ _ pa x = pass into m t va _ _ pa x
    unfold pass
    dsimp only
    rw [ih m (by omega) (by omega)]

theorem mapLoop_append (n : Nat) {t : Table b Leaf (h + 1)} {here rest : Nat} (h0 : 0 < here) (hd : span b (h + 1) ∣ va + here)
    (hn : here + rest ≤ n) : mapLoop into n t va (here + rest) pa pool e =
      if (mapLoop into here t va here pa pool e).ok then
        mapLoop into rest (mapLoop into here t va here pa pool e).table (va + here) rest (pa + here)
          (mapLoop into here t va here pa pool e).pool (mapLoop into here t va here pa pool e).edit
      else mapLoop into here t va here pa pool e := by
  induction n generalizing t va here pa pool e with
  | zero => omega
  | succ n ih =>
    have hpos := span_pos b (h + 1)
    -- the cut is no closer than the end of the first entry
    obtain ⟨x, hx⟩ : ∃ x, pagesUnder b va (h + 1) here = x := ⟨_, rfl⟩
    have hx0 : 0 < x := hx ▸ pagesUnder_pos (by omega)
    have hxle : x ≤ here := hx ▸ pagesUnder_le ..
    have hnext : (va + span b (h + 1)) / span b (h + 1) * span b (h + 1) - va ≤ here := by
      obtain ⟨m, hm⟩ := hd
      have hlt : va / span b (h + 1) < m := by
        rw [Nat.div_lt_iff_lt_mul hpos, Nat.mul_comm, ← hm]
        omega
      rw [Nat.add_div_right va hpos]
      have hmul : (va / span b (h + 1)).succ * span b (h + 1) ≤ m * span b (h + 1) := Nat.mul_le_mul_right _ hlt
      rw [Nat.mul_comm m, ← hm, Nat.add_comm va] at hmul
      exact Nat.sub_le_of_le_add hmul
    have hx' : pagesUnder b va (h + 1) (here + rest) = x := by
      rw [← hx]
      unfold pagesUnder
      omega
    rw [mapLoop_fuel here (n + 1) le_rfl (by omega), mapLoop_succ n t (show here + rest ≠ 0 by omega),
      mapLoop_succ n t (show here ≠ 0 by omega), hx, hx']
    rcases entered t va pool e with _ | y
    · exact (if_neg Bool.false_ne_true).symm
    show pass into n t va x (here + rest - x) pa y =
      if (pass into n t va x (here - x) pa y).ok then
        mapLoop into rest (pass into n t va x (here - x) pa y).table (va + here) rest (pa + here)
          (pass into n t va x (here - x) pa y).pool (pass into n t va x (here - x) pa y).edit
      else pass into n t va x (here - x) pa y
    have hgo : ∀ t pool e, mapLoop into n t (va + x) (here + rest - x) (pa + x) pool e =
        if (mapLoop into n t (va + x) (here - x) (pa + x) pool e).ok then
          mapLoop into rest (mapLoop into n t (va + x) (here - x) (pa + x) pool e).table (va + here) rest (pa + here)
            (mapLoop into n t (va + x) (here - x) (pa + x) pool e).pool
              (mapLoop into n t (va + x) (here - x) (pa + x) pool e).edit
        else mapLoop into n t (va + x) (here - x) (pa + x) pool e := by
      intro t pool e
      rcases Nat.eq_zero_or_pos (here - x) with hz | hz
      · obtain rfl : here = x := by omega
        rw [hz, mapLoop_zero, if_pos rfl, show here + rest - here = rest by omega, mapLoop_fuel n rest (by omega) le_rfl]
      · rw [show here + rest - x = here - x + rest by omega,
          ih hz (by rw [show va + x + (here - x) = va + here by omega]; exact hd) (by omega),
          mapLoop_fuel n (here - x) (by omega) le_rfl, show va + x + (here - x) = va + here by omega,
          show pa + x + (here - x) = pa + here by omega]
    unfold pass
    dsimp only
    by_cases hok : (into y.2.1 va x pa y.2.2.1 y.2.2.2).ok = true
    · rw [if_pos hok, if_pos hok, hgo]
    · rw [if_neg hok, if_neg hok, if_neg Bool.false_ne_true]

end Walk
end KickOS
