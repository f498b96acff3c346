import KickOS.Driver.Layout

/-! The bring-up of an accepted descriptor: what each spawned thread is delegated, and what the entry thread keeps. -/

namespace KickOS.Driver

/-- The entry thread's table holds the layout: at the place of each token held, what the token names, with the rights it
was given. Inside another task the places are those of the instance's array. -/
def Seated (cap0 : Nat) (d : Descriptor) (l : Layout) (hosted : Option (List Nat)) (given : Nat → Rights) (T : Table) : Prop :=
  ∀ tok : Fin tokCount, d.tokenHeld tok = some true →
    ∃ cap, sourceOf cap0 hosted (l.place tok) = some cap ∧ T cap = some ⟨tokenObject d.lineCount tok, given tok⟩

section Objects

variable {d : Descriptor} {i j : Nat} {t : Thread} {c : Cap}

theorem Accepted.object (h : Accepted d) (hi : i < d.threadCount) (ht : index d.threads i = some t) (hj : j < t.capCount)
    (hc : index t.caps j = some c) : tokenObject d.lineCount (tokenOf c) = objectOf c := by
  obtain ⟨hres, -⟩ := h.resource i t j c hi ht hj hc
  have hlines : d.lineCount ≤ 2 := h.lines
  have hbell := h.bell i t j c hi ht hj hc
  unfold resLine0 at hres
  by_cases hep : c.resource = 0
  · simp [tokenOf, objectOf, tokenObject, resNotify, resLine0, resEp, tokEp, hep]
  by_cases hnote : c.resource = 1
  · by_cases hbadge : c.badge = 0
    · simp [tokenOf, objectOf, tokenObject, resNotify, resLine0, resEp, tokEp, tokNotify, hnote, hbadge]
    · have htok : tokenOf c = tokDoorbell := by simp [tokenOf, resNotify, hnote, hbadge]
      have hb : c.badge = d.lineCount + 1 := by
        rw [hbell htok, doorbellBadge]
        omega
      have hbit : badgeBit c.badge = d.lineCount := by
        rw [badgeBit, if_neg hbadge, hb]
        omega
      rw [htok, objectOf, if_neg (by simp [resEp, hnote]), if_pos (by simp [resNotify, hnote]), if_neg hbadge, hbit]
      rfl
  · have htok : tokenOf c = 3 + (c.resource - 2) := by
      rw [tokenOf, if_neg (by simp [resNotify, hnote]), if_pos (by unfold resLine0; omega)]
      unfold tokLine0 resLine0
      omega
    rw [htok, objectOf, if_neg (by unfold resEp; omega), if_neg (by unfold resNotify; omega), tokenObject,
      if_neg (by unfold tokEp; omega), if_neg (by unfold tokNotify; omega), if_neg (by unfold tokDoorbell; omega)]
    unfold tokLine0 resLine0
    congr 1
    omega

end Objects

/-- The grants of a spawned thread: one for each of its capabilities, and where the kernel takes them, at index `j` the
object its capability `j` names, at its rights. -/
def Delegates (T : Table) (t : Thread) (grants : List Grant) : Prop :=
  grants.length = t.capCount ∧ ∀ held, T.delegate grants = some held →
    held.length = t.capCount ∧ ∀ j c, j < t.capCount → index t.caps j = some c → held[j]? = some ⟨objectOf c, c.rights⟩

section Spawns

variable {d : Descriptor} {cap0 : Nat} {l : Layout} {x : Instance} {given : Nat → Rights} {T : Table} {i : Nat} {t : Thread}

theorem grantOf_spec (h : Accepted d) (hT : Seated cap0 d l x.hosted given T) (hi : i < d.threadCount)
    (ht : index d.threads i = some t) {j : Nat} {c : Cap} (hj : j < t.capCount) (hc : index t.caps j = some c) :
    ∃ g, grantOf cap0 l x.hosted c = some g ∧ g.rightsMask = c.rights ∧ T g.sourceCap = some ⟨objectOf c, given (tokenOf c)⟩ := by
  have hlt := h.token_lt hi ht hj hc
  obtain ⟨cap, hcap, hentry⟩ := hT ⟨tokenOf c, hlt⟩ (h.token_held hi ht hj hc)
  refine ⟨⟨cap, c.rights⟩, ?_, rfl, ?_⟩
  · simp [grantOf, index_of_lt l.place hlt, hcap]
  · rw [hentry, h.object hi ht hj hc]

theorem grantsOf_spec (h : Accepted d) (hT : Seated cap0 d l x.hosted given T) (hi : i < d.threadCount)
    (ht : index d.threads i = some t) {js : List Nat} (hjs : ∀ j ∈ js, j < t.capCount) :
    ∃ grants, grantsOf cap0 l x.hosted t js = some grants ∧ grants.length = js.length ∧ ∀ held, T.delegate grants = some held →
      held.length = js.length ∧ ∀ (k j : Nat) (c : Cap), js[k]? = some j → index t.caps j = some c →
        held[k]? = some ⟨objectOf c, c.rights⟩ := by
  induction js with
  | nil =>
    refine ⟨[], rfl, rfl, ?_⟩
    intro held hheld
    cases hheld
    exact ⟨rfl, by simp⟩
  | cons j js ih =>
    obtain ⟨grants, hgrants, hlen, hdel⟩ := ih fun k hk => hjs k (List.mem_cons_of_mem _ hk)
    have hj := hjs j (List.mem_cons_self ..)
    obtain ⟨c, hc⟩ := h.cap hi ht hj
    obtain ⟨g, hg, hmask, hsource⟩ := grantOf_spec h hT hi ht hj hc
    refine ⟨g :: grants, ?_, by simp [hlen], ?_⟩
    · simp [grantsOf, hc, hg, hgrants]
    · intro held hheld
      rw [Table.delegate] at hheld
      obtain ⟨e, he, rest, hrest, rfl⟩ : ∃ e, T.seat g = some e ∧ ∃ rest, T.delegate grants = some rest ∧ e :: rest = held := by
        simpa [Option.bind_eq_some_iff] using hheld
      obtain ⟨hlen', hat⟩ := hdel rest hrest
      refine ⟨by simp [hlen'], ?_⟩
      intro k j' c' hk hc'
      cases k with
      | zero =>
        obtain rfl : j = j' := by simpa using hk
        obtain rfl : c = c' := Option.some.inj (hc.symm.trans hc')
        -- a seat keeps the object of its source and takes the rights of the grant
        have hseat : e = ⟨objectOf c, c.rights⟩ := by
          rw [Table.seat, hsource] at he
          simp only [Option.bind_eq_bind, Option.bind_some, hmask] at he
          split_ifs at he
          all_goals exact (Option.some.inj he).symm
        simp [hseat]
      | succ k => exact hat k j' c' (by simpa using hk) hc'

theorem delegates (h : Accepted d) (hT : Seated cap0 d l x.hosted given T) (hi : i < d.threadCount)
    (ht : index d.threads i = some t) : ∃ grants, grantsOf cap0 l x.hosted t (List.range t.capCount) = some grants ∧
    Delegates T t grants := by
  obtain ⟨grants, hgrants, hlen, hdel⟩ := grantsOf_spec h hT hi ht (fun j hj => List.mem_range.mp hj)
  refine ⟨grants, hgrants, by simpa using hlen, ?_⟩
  intro held hheld
  obtain ⟨hlen', hat⟩ := hdel held hheld
  refine ⟨by simpa using hlen', ?_⟩
  intro j c hj hc
  exact hat j j c (by simp [hj]) hc

theorem spawnAll_spec (h : Accepted d) (hT : Seated cap0 d l x.hosted given T) (a : Answers) {is : List Nat}
    (his : ∀ i ∈ is, i < d.threadCount) : ∃ calls failed, d.spawnAll cap0 x a l is = some (calls, failed) ∧
      (∀ call ∈ calls, ∃ i grants t, call = .spawn i grants ∧ index d.threads i = some t ∧ Delegates T t grants) ∧
        failed ≠ some .body := by
  induction is with
  | nil => exact ⟨[], none, rfl, by simp, by simp⟩
  | cons i is ih =>
    obtain ⟨calls, failed, hrest, hcalls, hfailed⟩ := ih fun k hk => his k (List.mem_cons_of_mem _ hk)
    have hi := his i (List.mem_cons_self ..)
    obtain ⟨t, ht⟩ := h.thread hi
    obtain ⟨grants, hgrants, hdel⟩ := delegates h hT hi ht
    have hlaunch : index (fun _ : Fin threadsMax => ()) i = some () := index_of_lt _ (lt_of_index ht)
    have hone : ∀ call ∈ [Call.spawn i grants], ∃ i grants t, call = .spawn i grants ∧ index d.threads i = some t ∧
        Delegates T t grants := by
      intro call hcall
      exact ⟨i, grants, t, List.mem_singleton.mp hcall, ht, hdel⟩
    rw [Descriptor.spawnAll, ht]
    simp only [Option.bind_eq_bind, Option.bind_some, hgrants, hlaunch, hrest]
    cases hs : a.spawned i with
    | true =>
      refine ⟨.spawn i grants :: calls, failed, by simp, ?_, hfailed⟩
      intro call hcall
      obtain rfl | hcall := List.mem_cons.mp hcall
      · exact hone _ (List.mem_singleton_self _)
      · exact hcalls call hcall
    | false =>
      by_cases h0 : i = 0
      · exact ⟨[.spawn i grants], some (.refused "ERROR: driver thread spawn failed\n"), by simp [h0], hone, by simp⟩
      · exact ⟨[.spawn i grants], some (.trapped "ERROR: driver thread spawn failed\n"), by simp [h0], hone, by simp⟩

end Spawns

/-- The caller's table behind a run of calls. -/
def Table.afterAll (cap0 : Nat) (T : Table) (calls : List Call) : Table := calls.foldl (Table.after cap0) T

section Keeps

variable {cap0 : Nat} {T : Table} {t : Thread}

theorem afterAll_append (calls calls' : List Call) : T.afterAll cap0 (calls ++ calls') =
    (T.afterAll cap0 calls).afterAll cap0 calls' :=
  List.foldl_append

theorem afterAll_cons (call : Call) (calls : List Call) :
    T.afterAll cap0 (call :: calls) = (T.after cap0 call).afterAll cap0 calls := rfl

theorem afterAll_spawns {calls : List Call} (h : ∀ call ∈ calls, ∃ i grants, call = .spawn i grants) :
    T.afterAll cap0 calls = T := by
  induction calls with
  | nil => rfl
  | cons call calls ih =>
    obtain ⟨i, grants, rfl⟩ := h call (List.mem_cons_self ..)
    exact ih fun c hc => h c (List.mem_cons_of_mem _ hc)

theorem after_narrow (cap : Nat) (mask : Rights) (hcap : cap0 ≤ cap) :
    T.after cap0 (.narrow cap mask) = Function.update T cap ((T cap).map fun e => { e with rights := e.rights &&& mask }) := by
  rw [Table.after]
  cases he : T cap with
  | none => exact (Function.update_eq_self_iff.mpr (by simp [he])).symm
  | some e => simp [not_lt.mpr hcap]

theorem after_close (cap : Nat) (hcap : cap0 ≤ cap) : T.after cap0 (.close cap) = Function.update T cap none := by
  rw [Table.after, if_neg (not_lt.mpr hcap)]

theorem narrowAll_spec (cap0 : Nat) (hcaps : t.capCount ≤ capsMax) {m k : Nat} (hm : k + m ≤ t.capCount) :
    ∃ calls, Descriptor.narrowAll cap0 t (List.range' k m) = some calls ∧ ∀ T : Table,
      (∀ j c, k ≤ j → j < k + m → index t.caps j = some c →
        T.afterAll cap0 calls (cap0 + j) = (T (cap0 + j)).map fun e => { e with rights := e.rights &&& c.rights }) ∧
      ∀ cap, (∀ j, k ≤ j → j < k + m → cap ≠ cap0 + j) → T.afterAll cap0 calls cap = T cap := by
  induction m generalizing k with
  | zero => exact ⟨[], rfl, fun T => ⟨by intro j c h1 h2; omega, fun _ _ => rfl⟩⟩
  | succ m ih =>
    obtain ⟨calls, hcalls, hspec⟩ := ih (k := k + 1) (by omega)
    have hc : index t.caps k = some (t.caps ⟨k, by omega⟩) := index_of_lt t.caps (by omega)
    refine ⟨.narrow (cap0 + k) (t.caps ⟨k, by omega⟩).rights :: calls, ?_, ?_⟩
    · rw [List.range'_succ, Descriptor.narrowAll, hc]
      simp [hcalls]
    · intro T
      have hstep := after_narrow (T := T) (cap0 + k) (t.caps ⟨k, by omega⟩).rights (Nat.le_add_right cap0 k)
      obtain ⟨hown, hother⟩ := hspec (T.after cap0 (.narrow (cap0 + k) (t.caps ⟨k, by omega⟩).rights))
      rw [afterAll_cons]
      constructor
      · intro j c hkj hjm hj
        obtain rfl | hlt := Nat.eq_or_lt_of_le hkj
        · obtain rfl : t.caps ⟨k, by omega⟩ = c := Option.some.inj (hc.symm.trans hj)
          rw [hother (cap0 + k) (by intro j h1 h2; omega), hstep, Function.update_self]
        · rw [hown j c hlt (by omega) hj, hstep, Function.update_of_ne (show cap0 + j ≠ cap0 + k by omega)]
      · intro cap hne
        rw [hother cap fun j h1 h2 => hne j (by omega) (by omega), hstep, Function.update_of_ne (hne k (le_refl k) (by omega))]

theorem not_mem_narrowAll {js : List Nat} {calls : List Call} (h : Descriptor.narrowAll cap0 t js = some calls)
    {i : Nat} {grants : List Grant} : Call.spawn i grants ∉ calls := by
  induction js generalizing calls with
  | nil =>
    cases h
    exact List.not_mem_nil
  | cons j js ih =>
    obtain ⟨c, -, rest, hrest, rfl⟩ : ∃ c, index t.caps j = some c ∧ ∃ rest, Descriptor.narrowAll cap0 t js = some rest ∧
        .narrow (cap0 + j) c.rights :: rest = calls := by
      simpa [Descriptor.narrowAll, Option.bind_eq_some_iff] using h
    simpa using ih hrest

theorem closes_spec (cap0 : Nat) (js : List Nat) (T : Table) :
    (∀ j ∈ js, T.afterAll cap0 (js.map fun j => .close (cap0 + j)) (cap0 + j) = none) ∧
    ∀ cap, (∀ j ∈ js, cap ≠ cap0 + j) → T.afterAll cap0 (js.map fun j => .close (cap0 + j)) cap = T cap := by
  induction js generalizing T with
  | nil => exact ⟨by simp, fun _ _ => rfl⟩
  | cons k js ih =>
    obtain ⟨hown, hother⟩ := ih (T.after cap0 (.close (cap0 + k)))
    have hstep := after_close (T := T) (cap0 + k) (Nat.le_add_right cap0 k)
    rw [List.map_cons, afterAll_cons]
    constructor
    · intro j hj
      by_cases hmem : j ∈ js
      · exact hown j hmem
      · obtain rfl : j = k := (List.mem_cons.mp hj).resolve_right hmem
        have hne : ∀ i ∈ js, cap0 + j ≠ cap0 + i := by
          intro i hi heq
          exact hmem (Nat.add_left_cancel heq ▸ hi)
        rw [hother (cap0 + j) hne, hstep, Function.update_self]
    · intro cap hne
      rw [hother cap fun j hj => hne j (List.mem_cons_of_mem _ hj), hstep, Function.update_of_ne (hne k (List.mem_cons_self ..))]

end Keeps

/-- What the entry thread holds of the layout behind its bring-up: thread 0's capability `j` at place `j`, at its rights
as far as they were given, and nothing at the other places. The rest of its table is as it was. -/
structure Keeps (cap0 : Nat) (l : Layout) (t : Thread) (given : Nat → Rights) (T T' : Table) : Prop where
  own : ∀ j c, j < t.capCount → index t.caps j = some c → T' (cap0 + j) = some ⟨objectOf c, given (tokenOf c) &&& c.rights⟩
  closed : ∀ p, t.capCount ≤ p → p < l.count → T' (cap0 + p) = none
  other : ∀ cap, (∀ p, p < l.count → cap ≠ cap0 + p) → T' cap = T cap

section BringUp

variable {d : Descriptor} {cap0 : Nat} {l : Layout} {x : Instance} {given : Nat → Rights} {T : Table} {t : Thread}

theorem Fits.count_le (h : Accepted d) (hl : Fits d l) (ht : index d.threads 0 = some t) : t.capCount ≤ l.count := by
  by_contra hlt
  obtain ⟨c, hc⟩ := h.cap h.pos ht (not_le.mp hlt)
  have htok := h.token_lt h.pos ht (not_le.mp hlt) hc
  have hown := hl.own t l.count c _ ht (not_le.mp hlt) hc rfl htok
  have hplace := hl.lt ⟨tokenOf c, htok⟩ (h.token_held h.pos ht (not_le.mp hlt) hc)
  omega

theorem keeps (h : Accepted d) (hl : Fits d l) (hT : Seated cap0 d l none given T) (ht : index d.threads 0 = some t)
    {narrows : List Call} (hn : Descriptor.narrowAll cap0 t (List.range t.capCount) = some narrows) :
    Keeps cap0 l t given T (T.afterAll cap0 (narrows ++ Descriptor.closeAll cap0 t l)) := by
  have hle := hl.count_le h ht
  obtain ⟨calls, hcalls, hspec⟩ := narrowAll_spec cap0 (h.caps 0 t h.pos ht) (k := 0) (m := t.capCount) (by omega)
  rw [← List.range_eq_range'] at hcalls
  obtain rfl : narrows = calls := Option.some.inj (hn.symm.trans hcalls)
  obtain ⟨hown, hother⟩ := hspec T
  obtain ⟨hgone, hrest⟩ := closes_spec cap0 ((List.range l.count).drop t.capCount) (T.afterAll cap0 narrows)
  have hmem : ∀ p, p ∈ (List.range l.count).drop t.capCount ↔ t.capCount ≤ p ∧ p < l.count := by
    intro p
    rw [List.range_eq_range', List.drop_range', List.mem_range'_1]
    omega
  rw [afterAll_append, Descriptor.closeAll]
  refine ⟨?_, ?_, ?_⟩
  · intro j c hj hc
    have htok := h.token_lt h.pos ht hj hc
    have hplace := hl.own t j c _ ht hj hc rfl htok
    obtain ⟨cap, hcap, hentry⟩ := hT ⟨tokenOf c, htok⟩ (h.token_held h.pos ht hj hc)
    obtain rfl : cap0 + j = cap := by simpa [sourceOf, hplace] using hcap
    rw [hrest (cap0 + j) (by intro p hp; have := (hmem p).mp hp; omega), hown j c (Nat.zero_le j) (by omega) hc, hentry,
      h.object h.pos ht hj hc]
    rfl
  · intro p hp hlt
    exact hgone p ((hmem p).mpr ⟨hp, hlt⟩)
  · intro cap hne
    rw [hrest cap fun p hp => hne p ((hmem p).mp hp).2, hother cap fun j _ hj => hne j (by omega)]

/-- What a bring-up of an accepted descriptor does. -/
def Brings (cap0 : Nat) (d : Descriptor) (l : Layout) (given : Nat → Rights) (T : Table) (r : List Call × Ended) : Prop :=
  (∀ i grants, Call.spawn i grants ∈ r.1 → ∃ t, index d.threads i = some t ∧ Delegates T t grants) ∧
  (r.2 = .body → ∃ t, index d.threads 0 = some t ∧ Keeps cap0 l t given T (T.afterAll cap0 r.1))

theorem brings_nothing {ended : Ended} (hend : ended ≠ .body) : Brings cap0 d l given T ([], ended) :=
  ⟨fun _ _ hmem => absurd hmem List.not_mem_nil, fun heq => absurd heq hend⟩

theorem launchAll_spec (h : Accepted d) (hl : Fits d l) (a : Answers) (hT : Seated cap0 d l x.hosted given T) :
    ∃ r, d.launchAll cap0 x a l = some r ∧ Brings cap0 d l given T r := by
  obtain ⟨spawns, failed, hrun, hspawns, hfailed⟩ := spawnAll_spec h hT a fun i hi =>
    List.mem_range.mp (List.mem_of_mem_drop (i := if x.hosted.isSome then 0 else 1) hi)
  have hgrants : ∀ i grants, Call.spawn i grants ∈ spawns → ∃ t, index d.threads i = some t ∧ Delegates T t grants := by
    intro i grants hmem
    obtain ⟨i', grants', t, heq, ht, hdel⟩ := hspawns _ hmem
    cases heq
    exact ⟨t, ht, hdel⟩
  rw [Descriptor.launchAll, hrun]
  simp only [Option.bind_eq_bind, Option.bind_some, Option.pure_def]
  cases failed with
  | some ended => exact ⟨_, rfl, hgrants, fun heq => absurd (congrArg some heq) hfailed⟩
  | none =>
    cases hh : x.hosted with
    | some caps =>
      simp only [Option.isSome_some, if_true]
      split_ifs
      · exact ⟨_, rfl, hgrants, by simp⟩
      · exact ⟨_, rfl, hgrants, by simp⟩
    | none =>
      rw [hh] at hT
      obtain ⟨t, ht⟩ := h.thread h.pos
      obtain ⟨narrows, hn, -⟩ := narrowAll_spec cap0 (h.caps 0 t h.pos ht) (k := 0) (m := t.capCount) (by omega)
      rw [← List.range_eq_range'] at hn
      have hkeeps := keeps h hl hT ht hn
      -- the spawns leave the table of the entry thread as it is
      have htable : T.afterAll cap0 (spawns ++ (narrows ++ Descriptor.closeAll cap0 t l)) =
          T.afterAll cap0 (narrows ++ Descriptor.closeAll cap0 t l) := by
        have hsame : T.afterAll cap0 spawns = T := by
          refine afterAll_spawns ?_
          intro call hcall
          obtain ⟨i, grants, -, heq, -⟩ := hspawns call hcall
          exact ⟨i, grants, heq⟩
        rw [afterAll_append, hsame]
      have hall : ∀ i grants, Call.spawn i grants ∈ spawns ++ (narrows ++ Descriptor.closeAll cap0 t l) →
          ∃ t, index d.threads i = some t ∧ Delegates T t grants := by
        intro i grants hmem
        obtain hmem | hmem := List.mem_append.mp hmem
        · exact hgrants i grants hmem
        · obtain hmem | hmem := List.mem_append.mp hmem
          · exact absurd hmem (not_mem_narrowAll hn)
          · obtain ⟨j, -, hj⟩ := List.mem_map.mp hmem
            cases hj
      simp only [Option.isSome_none, Bool.false_eq_true, if_false, ht, hn, Option.bind_some]
      split_ifs
      · exact ⟨_, rfl, hall, fun _ => ⟨t, ht, htable ▸ hkeeps⟩⟩
      · exact ⟨_, rfl, hall, by simp⟩

theorem bringUp_spec (hv : d.valid = some true) (hlay : d.layoutOf = some l) (hl : Fits d l) (a : Answers)
    (hT : Seated cap0 d l x.hosted given T) : ∃ r, d.bringUp cap0 x a = some r ∧ Brings cap0 d l given T r := by
  have h := accepted_of_valid hv
  obtain ⟨entries, hentries⟩ := h.everyThread Thread.entry (l := List.range d.threadCount) fun i hi => List.mem_range.mp hi
  obtain ⟨r, hr, hbrings⟩ := launchAll_spec h hl a hT
  rw [Descriptor.bringUp, hv, hentries, hlay]
  simp only [Option.bind_eq_bind, Option.bind_some, Option.pure_def, Bool.true_eq_false, if_false]
  cases entries with
  | false => exact ⟨_, rfl, brings_nothing (by simp)⟩
  | true =>
    simp only [Bool.true_eq_false, if_false]
    cases hadm : d.instanceAdmits x with
    | some msg => exact ⟨_, rfl, brings_nothing (by simp)⟩
    | none =>
      simp only
      split_ifs
      · exact ⟨_, rfl, brings_nothing (by simp)⟩
      · exact ⟨r, hr, hbrings⟩

end BringUp

/-- The layout of a driver's capabilities. The validator looks at no element behind the end of an array, whatever the
descriptor. Of one it accepts, the layout is one to one onto its places with thread 0's capabilities first, every token
a thread names is held, and the bring-up looks at no element behind the end either: each spawned thread is delegated
what its capabilities name, and the entry thread keeps its own and gives back the rest. -/
theorem driver_layout (d : Descriptor) :
    (∃ b, d.valid = some b) ∧ (d.valid = some true → ∃ l, d.layoutOf = some l ∧ Fits d l ∧
      (∀ i t j c, i < d.threadCount → index d.threads i = some t → j < t.capCount → index t.caps j = some c →
        d.tokenHeld (tokenOf c) = some true) ∧
      ∀ cap0 x a given T, Seated cap0 d l x.hosted given T → ∃ r, d.bringUp cap0 x a = some r ∧ Brings cap0 d l given T r) := by
  refine ⟨valid_isSome d, fun hv => ?_⟩
  have h := accepted_of_valid hv
  obtain ⟨l, hlay, hl⟩ := layout_fits h
  refine ⟨l, hlay, hl, fun i t j c hi ht hj hc => h.token_held hi ht hj hc, ?_⟩
  intro cap0 x a given T hT
  exact bringUp_spec hv hlay hl a hT

/-- The rights the init gives the entry thread with each token, and the kernel with each line it claims for it. -/
def initGiven (tok : Nat) : Rights :=
  if tok = tokEp then capWait ||| capTransfer
  else if tok = tokDoorbell then capSignal ||| capTransfer
  else capWait ||| capSignal ||| capTransfer

def plainThread (capCount : Nat) (caps : Fin capsMax → Cap) : Thread :=
  { entry := true, arg := .none, windowGrant := false, capCount := capCount, caps := caps }

/-- A driver of two threads with no block. -/
def twoThreads (lineCount : Nat) (first second : Thread) : Descriptor :=
  { tag := true, expectedBase := 0, blockSize := 0, blockFlags := 0, readyOffset := readyNone, epPosture := .retain,
    lineCount := lineCount, threadCount := 2, barrierAfter := 0, lines := fun _ => irqEdge,
    threads := ![first, second, second], blockInit := false, launch := false }

def plainInstance (lineCount : Nat) : Instance :=
  { mmioBase := 0, block := false, blockSize := 0, blockFlags := 0, console := false, lineCount := lineCount, hosted := none }

def allAnswered : Answers := { spawned := fun _ => true, blockInit := true, served := true, prioritised := true }

/-- A thread that serves a line, and one that receives on the endpoint and rings the first. -/
def ringDoorbell : Descriptor :=
  twoThreads 1 (plainThread 2 ![⟨resNotify, capWait, 0⟩, ⟨resLine0, capWait, 0⟩, ⟨resEp, 0, 0⟩])
    (plainThread 2 ![⟨resEp, capWait, 0⟩, ⟨resNotify, capSignal, 2⟩, ⟨resEp, 0, 0⟩])

/-- The entry thread's table as the init gives it: the notification, the line, the endpoint and the doorbell. -/
def ringDoorbellTable : Table := fun cap =>
  if cap = 1 then some ⟨.notification, initGiven tokNotify⟩
  else if cap = 2 then some ⟨.line 0, initGiven tokLine0⟩
  else if cap = 3 then some ⟨.endpoint, initGiven tokEp⟩
  else if cap = 4 then some ⟨.doorbell 1, initGiven tokDoorbell⟩
  else none

theorem ringDoorbell_seated {l : Layout} (hplace : l.place = ![2, 0, 3, 1, tokNone]) :
    Seated 1 ringDoorbell l none initGiven ringDoorbellTable := by
  intro tok htok
  rw [hplace]
  fin_cases tok
  · exact ⟨3, rfl, rfl⟩
  · exact ⟨1, rfl, rfl⟩
  · exact ⟨4, rfl, rfl⟩
  · exact ⟨2, rfl, rfl⟩
  · exact absurd htok (by decide)

/-- Its bring-up delegates the endpoint and the doorbell, and keeps the notification and the line. -/
def ringDoorbellCalls : List Call :=
  [.spawn 1 [⟨3, capWait⟩, ⟨4, capSignal⟩], .narrow 1 capWait, .narrow 2 capWait, .close 3, .close 4]

theorem driver_layout_ringDoorbell :
    ∃ l, ringDoorbell.layoutOf = some l ∧ Fits ringDoorbell l ∧
      ringDoorbell.bringUp 1 (plainInstance 1) allAnswered = some (ringDoorbellCalls, .body) ∧
      Brings 1 ringDoorbell l initGiven ringDoorbellTable (ringDoorbellCalls, .body) := by
  obtain ⟨l, hlay, hl, -, hbring⟩ := (driver_layout ringDoorbell).2 (by decide)
  have hplaces : ringDoorbell.layoutOf.map (fun l => List.ofFn l.place) = some (List.ofFn ![2, 0, 3, 1, tokNone]) := by decide
  rw [hlay, Option.map_some, Option.some.injEq] at hplaces
  have hseated := ringDoorbell_seated (List.ofFn_injective hplaces)
  have hcalls : ringDoorbell.bringUp 1 (plainInstance 1) allAnswered = some (ringDoorbellCalls, .body) := rfl
  obtain ⟨r, hr, hbrings⟩ := hbring 1 (plainInstance 1) allAnswered initGiven ringDoorbellTable hseated
  rw [hcalls] at hr
  cases hr
  exact ⟨l, hlay, hl, hcalls, hbrings⟩

/-- The entry thread of this driver asks for the right to send on its endpoint, which the init does not give it. -/
def sendsToItself : Descriptor :=
  twoThreads 0 (plainThread 1 fun _ => ⟨resEp, capSignal, 0⟩) (plainThread 1 fun _ => ⟨resEp, capWait, 0⟩)

/-- Its table as the init gives it, which holds the endpoint alone. -/
def sendsToItselfTable : Table := fun cap => if cap = 1 then some ⟨.endpoint, initGiven tokEp⟩ else none

theorem sendsToItself_seated {l : Layout} (hplace : l.place = ![0, tokNone, tokNone, tokNone, tokNone]) :
    Seated 1 sendsToItself l none initGiven sendsToItselfTable := by
  intro tok htok
  rw [hplace]
  fin_cases tok
  · exact ⟨1, rfl, rfl⟩
  all_goals exact absurd htok (by decide)

/-- The validator accepts it, and behind the bring-up it holds the endpoint with no right at all. -/
theorem entry_thread_loses_right :
    ∃ l calls, sendsToItself.valid = some true ∧ sendsToItself.layoutOf = some l ∧
      Seated 1 sendsToItself l none initGiven sendsToItselfTable ∧
      sendsToItself.bringUp 1 (plainInstance 0) allAnswered = some (calls, .body) ∧
      index sendsToItself.threads 0 = some (plainThread 1 fun _ => ⟨resEp, capSignal, 0⟩) ∧
      sendsToItselfTable.afterAll 1 calls 1 = some ⟨.endpoint, 0⟩ ∧ capSignal ≠ 0 := by
  obtain ⟨l, hlay, hplaces⟩ : ∃ l, sendsToItself.layoutOf = some l ∧
      List.ofFn l.place = List.ofFn ![0, tokNone, tokNone, tokNone, tokNone] :=
    ⟨_, rfl, by decide⟩
  refine ⟨l, [.spawn 1 [⟨1, capWait⟩], .narrow 1 capSignal], by decide, hlay,
    sendsToItself_seated (List.ofFn_injective hplaces), rfl, rfl, rfl, ?_⟩
  decide

end KickOS.Driver
