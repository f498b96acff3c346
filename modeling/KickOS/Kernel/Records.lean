import KickOS.Kernel.Placed

/-! The word records and the threads parked on them.

A record is taken for the first waiter of a word and freed with the last one, so at most one record names a word
and every active record has a waiter, but for the `hole`: the record just taken for a thread about to park. A record
with priority inheritance is on the held list of its owner. -/

namespace KickOS
open Function (update update_idem update_of_ne update_self)

/-- The edge of a thread parked on a record of this kind. -/
def WordKind.edge : WordKind → Rid → WaitEdge
  | .pi, m => .mutex m
  | _, m => .word m

namespace Kernel

variable {s s' : Kernel} {D : List Tid} {t c w o u : Tid} {m : Rid} {key : Key} {hole : Option Rid}

theorem setWord_self {v : Word} (h : s.words key = v) : s.setWord key v = s := by
  subst h
  simp [Kernel.setWord]

structure Recorded (s : Kernel) (hole : Option Rid) : Prop where
  active : ∀ m, m ∈ s.wordActive ↔ (s.wrec m).kind ≠ .free
  bound : ∀ m ∈ s.wordActive, m < s.count
  nodup : s.wordActive.Nodup
  key_inj : ∀ m ∈ s.wordActive, ∀ m' ∈ s.wordActive, (s.wrec m).key = (s.wrec m').key → m = m'
  idle : ∀ m, (s.wrec m).kind = .free → (s.wrec m).waiters = []
  waited : ∀ m ∈ s.wordActive, hole ≠ some m → (s.wrec m).waiters ≠ []
  owned : ∀ m, (s.wrec m).kind = .pi → (s.wrec m).owner ≠ none
  held : ∀ o m, m ∈ (s.thr o).heldList ↔ (s.wrec m).kind = .pi ∧ (s.wrec m).owner = some o
  held_nodup : ∀ o, (s.thr o).heldList.Nodup
  edge_pi : ∀ m, (s.wrec m).kind = .pi → ∀ t ∈ (s.wrec m).waiters, (s.thr t).edge = .mutex m
  edge_plain : ∀ m, (s.wrec m).kind = .plain → ∀ t ∈ (s.wrec m).waiters, (s.thr t).edge = .word m

theorem Recorded.of_core (h : Recorded s hole) (hc : s'.core = s.core) : Recorded s' hole := by
  have hk : ∀ k : Kernel, Recorded k.core hole ↔ Recorded k hole := fun k => by
    constructor <;>
    · rintro ⟨h1, h2, h3, h4, h5, h6, h7, h8, h9, h10, h11⟩
      exact ⟨h1, h2, h3, h4, h5, h6, h7, h8, h9, h10, h11⟩
  rw [← hk, hc, hk]
  exact h

theorem Recorded.same (h : Recorded s hole) (hn : s'.count = s.count) (hw : s'.wrec = s.wrec)
    (ha : s'.wordActive = s.wordActive) (hh : ∀ t, (s'.thr t).heldList = (s.thr t).heldList)
    (he : ∀ m, ∀ t ∈ (s.wrec m).waiters, (s'.thr t).edge = (s.thr t).edge) : Recorded s' hole where
  active := by rw [ha, hw]; exact h.active
  bound := by rw [ha, hn]; exact h.bound
  nodup := by rw [ha]; exact h.nodup
  key_inj := by rw [ha, hw]; exact h.key_inj
  idle := by rw [hw]; exact h.idle
  waited := by rw [ha, hw]; exact h.waited
  owned := by rw [hw]; exact h.owned
  held o m := by rw [hh, hw]; exact h.held o m
  held_nodup o := by rw [hh]; exact h.held_nodup o
  edge_pi m hm t ht := by rw [hw] at hm ht; rw [he m t ht]; exact h.edge_pi m hm t ht
  edge_plain m hm t ht := by rw [hw] at hm ht; rw [he m t ht]; exact h.edge_plain m hm t ht

theorem Recorded.waiter_edge (h : Recorded s hole) (ht : t ∈ (s.wrec m).waiters) :
    (s.wrec m).kind = .pi ∧ (s.thr t).edge = .mutex m ∨ (s.wrec m).kind = .plain ∧ (s.thr t).edge = .word m := by
  cases hk : (s.wrec m).kind with
  | free => rw [h.idle m hk] at ht; cases ht
  | pi => exact .inl ⟨rfl, h.edge_pi m hk t ht⟩
  | plain => exact .inr ⟨rfl, h.edge_plain m hk t ht⟩

/-! ### The record of a word -/

theorem recordFind_some (h : s.recordFind key = some m) : m ∈ s.wordActive ∧ (s.wrec m).key = key := by
  obtain ⟨h1, h2⟩ := List.find?_eq_some_iff_append.mp h |>.imp id fun ⟨a, b, h, _⟩ => (h ▸ by simp : m ∈ s.wordActive)
  exact ⟨h2, by simpa using h1⟩

theorem recordFind_none (h : s.recordFind key = none) : ∀ m ∈ s.wordActive, (s.wrec m).key ≠ key := by
  intro m hm
  simpa using List.find?_eq_none.mp h m hm

/-- Every active record keeps a thread of its own parked, so one is left for a thread that runs. -/
theorem Recorded.exists_free (h : Recorded s none) (hp : Placed s D) (hc : s.Runnable c) :
    ∃ m, m < s.count ∧ (s.wrec m).kind = .free := by
  by_contra hall
  push Not at hall
  have hw : ∀ m ∈ Finset.range s.count, (s.wrec m).waiters ≠ [] := fun m hm => by
    have hk := hall m (Finset.mem_range.mp hm)
    exact h.waited m ((h.active m).mpr hk) (by simp)
  -- the first waiters of the records are as many threads as there are records, without the caller
  let f : Rid → Tid := fun m => (s.wrec m).waiters.headD 0
  have hf : ∀ m ∈ Finset.range s.count, f m ∈ (s.wrec m).waiters := fun m hm => by
    have := hw m hm
    cases hl : (s.wrec m).waiters with
    | nil => exact absurd hl this
    | cons a l => simp [f, hl]
  have hmaps : ∀ m ∈ Finset.range s.count, f m ∈ (Finset.range s.count).erase c := fun m hm => by
    have hmem : f m ∈ s.listOf (.record m) := hf m hm
    have hb : (s.thr (f m)).state = .blocked := by
      by_contra hb
      exact hp.links.not_listed _ hb hmem
    refine Finset.mem_erase.mpr ⟨fun e => ?_, Finset.mem_range.mpr (hp.links.bound _ hb)⟩
    exact hc.ne_blocked (e ▸ hb)
  have hinj : Set.InjOn f (Finset.range s.count) := fun m hm m' hm' e => by
    have h1 := (hp.links.listed (.record m) (f m) (hf m hm)).1
    have h2 := (hp.links.listed (.record m') (f m) (e ▸ hf m' hm')).1
    rw [h1] at h2
    simpa using h2
  have hcard := Finset.card_le_card_of_injOn f hmaps hinj
  have hcm : c ∈ Finset.range s.count := Finset.mem_range.mpr (hp.ready.bound c hc)
  rw [Finset.card_erase_of_mem hcm, Finset.card_range] at hcard
  have hpos : 0 < s.count := Nat.lt_of_le_of_lt (Nat.zero_le c) (hp.ready.bound c hc)
  exact lt_irrefl _ ((Nat.le_sub_one_iff_lt hpos).mp hcard)

/-- The state with record `m` taken for a word, on its owner's held list where it inherits priorities. -/
def taken (s : Kernel) (m : Rid) (key : Key) (kind : WordKind) (owner : Option Tid) : Kernel :=
  { s with
    wrec := update s.wrec m { key, kind, owner, waiters := [] }
    wordActive := m :: s.wordActive
    thr := fun o => { s.thr o with
      heldList := if kind = .pi ∧ owner = some o then m :: (s.thr o).heldList else (s.thr o).heldList } }

theorem recordTake_eq (key : Key) (kind : WordKind) (owner : Option Tid) (hfree : ∃ m, m < s.count ∧ (s.wrec m).kind = .free) :
    ∃ m, m < s.count ∧ (s.wrec m).kind = .free ∧ s.recordTake key kind owner = (s.taken m key kind owner, m) := by
  obtain ⟨m₀, hm₀, hk₀⟩ := hfree
  cases hf : (List.range s.count).find? fun m => (s.wrec m).kind = .free with
  | none =>
    have := List.find?_eq_none.mp hf m₀ (List.mem_range.mpr hm₀)
    simp [hk₀] at this
  | some m =>
    have hk := List.find?_some hf
    have hm := List.mem_of_find?_eq_some hf
    refine ⟨m, List.mem_range.mp hm, by simpa using hk, ?_⟩
    unfold recordTake taken
    rw [hf]
    cases owner with
    | none => simp [onRec]
    | some t =>
      by_cases hkind : kind = .pi
      · simp only [hkind, ↓reduceIte, Prod.mk.injEq, and_true]
        simp only [heldPush, onThr, setThr, onRec, Kernel.mk.injEq, and_true]
        funext o
        by_cases ho : o = t
        · subst ho; simp
        · simp [ho, Ne.symm ho]
      · simp [hkind, onRec]

theorem Recorded.taken {kind : WordKind} {owner : Option Tid} (h : Recorded s none) (hm : m < s.count)
    (hk : (s.wrec m).kind = .free) (hkey : s.recordFind key = none) (hkind : kind ≠ .free)
    (howner : kind = .pi → owner ≠ none) : Recorded (s.taken m key kind owner) (some m) := by
  have hna : m ∉ s.wordActive := fun hmem => (h.active m).mp hmem hk
  have hnh : ∀ o, m ∉ (s.thr o).heldList := fun o hmem => by
    rw [h.held, hk] at hmem
    cases hmem.1
  have hx : ∀ i, i ≠ m → (s.taken m key kind owner).wrec i = s.wrec i := fun i hi => by simp [Kernel.taken, hi]
  have hself : (s.taken m key kind owner).wrec m = { key, kind, owner, waiters := [] } := by simp [Kernel.taken]
  have hmem : ∀ i, i ∈ (s.taken m key kind owner).wordActive ↔ i = m ∨ i ∈ s.wordActive := fun i => by
    simp [Kernel.taken]
  have hne : ∀ i ∈ s.wordActive, i ≠ m := fun i hi e => hna (e ▸ hi)
  refine ⟨fun i => ?_, fun i hi => ?_, ?_, fun i hi j hj e => ?_, fun i hi => ?_, fun i hi hhole => ?_, fun i hi => ?_,
    fun o i => ?_, fun o => ?_, fun i hi u hu => ?_, fun i hi u hu => ?_⟩
  · by_cases hi : i = m
    · simp [hmem, hi, hself, hkind]
    · simpa [hmem, hi, hx] using h.active i
  · rcases (hmem i).mp hi with rfl | hi
    · exact hm
    · exact h.bound i hi
  · exact List.nodup_cons.mpr ⟨hna, h.nodup⟩
  · have hother := recordFind_none hkey
    rw [hmem] at hi hj
    rcases hi with hi | hi <;> rcases hj with hj | hj
    · rw [hi, hj]
    · rw [hi, hself, hx j (hne j hj)] at e
      exact absurd e.symm (hother j hj)
    · rw [hj, hself, hx i (hne i hi)] at e
      exact absurd e (hother i hi)
    · rw [hx i (hne i hi), hx j (hne j hj)] at e
      exact h.key_inj i hi j hj e
  · by_cases hi' : i = m
    · rw [hi', hself]
    · rw [hx i hi'] at hi ⊢
      exact h.idle i hi
  · have hi' : i ≠ m := fun e => hhole (by rw [e])
    rw [hx i hi']
    exact h.waited i (((hmem i).mp hi).resolve_left hi') (by simp)
  · by_cases hi' : i = m
    · rw [hi', hself] at hi ⊢
      exact howner hi
    · rw [hx i hi'] at hi ⊢
      exact h.owned i hi
  · have ho := h.held o i
    by_cases hi' : i = m
    · rw [hi', hself]
      by_cases hown : kind = .pi ∧ owner = some o
      · simp [Kernel.taken, hown]
      · simp only [Kernel.taken, hown, ↓reduceIte, iff_false]
        exact hnh o
    · rw [hx i hi', ← ho]
      simp only [Kernel.taken]
      split_ifs <;> simp [hi']
  · simp only [Kernel.taken]
    split_ifs
    · exact List.nodup_cons.mpr ⟨hnh o, h.held_nodup o⟩
    · exact h.held_nodup o
  · by_cases hi' : i = m
    · rw [hi', hself] at hu; cases hu
    · rw [hx i hi'] at hi hu
      exact h.edge_pi i hi u hu
  · by_cases hi' : i = m
    · rw [hi', hself] at hu; cases hu
    · rw [hx i hi'] at hi hu
      exact h.edge_plain i hi u hu

theorem Placed.taken {kind : WordKind} {owner : Option Tid} (h : Placed s D) (hk : (s.wrec m).waiters = []) :
    Placed (s.taken m key kind owner) D := by
  have hl : ∀ pl, (s.taken m key kind owner).listOf pl = s.listOf pl := fun pl => by
    cases pl with
    | record i => by_cases hi : i = m <;> simp [listOf, Kernel.taken, hi, hk]
    | _ => rfl
  exact ⟨h.ready.same rfl rfl (fun _ => Iff.rfl) (fun _ _ => rfl), h.timed.same rfl (fun _ => rfl) (fun _ => id),
    h.links.same rfl (fun _ => Iff.rfl) (fun _ => rfl) (fun _ => rfl) hl⟩

theorem armBlock_core {d : Option Nat} {q : Queue} {edge : WaitEdge} :
    ((s.deadlineArm c d).wqBlock c q edge).core =
      ((s.onThr c fun x => { x with queue := some q, edge := edge }).onQueue q fun l => l ++ [c]).core :=
  wqBlock_core.trans (onQueue_core_congr (onThr_core_congr deadlineArm_core fun _ => rfl))

/-- The state with `c` on record `m`. -/
def enlisted (s : Kernel) (c : Tid) (m : Rid) : Kernel :=
  (s.onThr c fun x => { x with queue := some (.record m), edge := (s.wrec m).kind.edge m }).onQueue (.record m)
    fun l => l ++ [c]

theorem Recorded.block {d : Option Nat} (h : Recorded s hole) (hm : m ∈ s.wordActive)
    (hhole : hole = none ∨ hole = some m) (hc : ∀ i, c ∉ (s.wrec i).waiters) :
    Recorded ((s.deadlineArm c d).wqBlock c (.record m) ((s.wrec m).kind.edge m)) none := by
  suffices hs : Recorded (s.enlisted c m) none from hs.of_core armBlock_core
  have hx : ∀ i, i ≠ m → (s.enlisted c m).wrec i = s.wrec i := fun i hi => by
    simp [enlisted, onQueue, onRec, onThr, setThr, hi]
  have hself : (s.enlisted c m).wrec m = { s.wrec m with waiters := (s.wrec m).waiters ++ [c] } := by
    simp [enlisted, onQueue, onRec, onThr, setThr]
  have hedge : ∀ u, u ≠ c → (s.enlisted c m).thr u = s.thr u := fun u hu => by
    simp [enlisted, onQueue, onRec, onThr, setThr, hu]
  have hheld : ∀ u, ((s.enlisted c m).thr u).heldList = (s.thr u).heldList := fun u => by
    rw [enlisted, onQueue_thr]; exact field_onThr Thread.heldList rfl u
  have hcedge : ((s.enlisted c m).thr c).edge = (s.wrec m).kind.edge m := by
    simp [enlisted, onQueue, onRec, onThr, setThr]
  have hact : (s.enlisted c m).wordActive = s.wordActive := rfl
  have hcount : (s.enlisted c m).count = s.count := rfl
  have hrec : ∀ i, ((s.enlisted c m).wrec i).kind = (s.wrec i).kind ∧ ((s.enlisted c m).wrec i).key = (s.wrec i).key ∧
      ((s.enlisted c m).wrec i).owner = (s.wrec i).owner := fun i => by
    by_cases hi : i = m
    · subst hi; rw [hself]; exact ⟨rfl, rfl, rfl⟩
    · rw [hx i hi]; exact ⟨rfl, rfl, rfl⟩
  refine ⟨fun i => ?_, fun i hi => ?_, ?_, fun i hi j hj e => ?_, fun i hi => ?_, fun i hi _ => ?_, fun i hi => ?_,
    fun o i => ?_, fun o => ?_, fun i hi u hu => ?_, fun i hi u hu => ?_⟩
  · rw [hact, (hrec i).1]; exact h.active i
  · rw [hact] at hi; rw [hcount]; exact h.bound i hi
  · rw [hact]; exact h.nodup
  · rw [hact] at hi hj
    rw [(hrec i).2.1, (hrec j).2.1] at e
    exact h.key_inj i hi j hj e
  · rw [(hrec i).1] at hi
    have hne : i ≠ m := fun e => (h.active m).mp hm (e ▸ hi)
    rw [hx i hne]; exact h.idle i hi
  · rw [hact] at hi
    by_cases hne : i = m
    · subst hne; rw [hself]; simp
    · rw [hx i hne]
      refine h.waited i hi fun e => ?_
      rcases hhole with hh | hh <;> rw [hh] at e <;> cases e
      exact hne rfl
  · rw [(hrec i).1] at hi
    rw [(hrec i).2.2]; exact h.owned i hi
  · rw [hheld, (hrec i).1, (hrec i).2.2]; exact h.held o i
  · rw [hheld]; exact h.held_nodup o
  all_goals
    rw [(hrec i).1] at hi
    by_cases hne : i = m
    · subst hne
      rw [hself] at hu
      rcases List.mem_append.mp hu with hu | hu
      · rw [hedge u (fun e => hc i (e ▸ hu))]
        first | exact h.edge_pi i hi u hu | exact h.edge_plain i hi u hu
      · rw [List.mem_singleton.mp hu, hcedge, hi]; rfl
    · rw [hx i hne] at hu
      rw [hedge u (fun e => hc i (e ▸ hu))]
      first | exact h.edge_pi i hi u hu | exact h.edge_plain i hi u hu

/-! ### A waiter leaves -/

/-- The state with record `m` given back. -/
def freed (s : Kernel) (m : Rid) : Kernel :=
  { s with
    wrec := update s.wrec m { s.wrec m with owner := none, key := 0, kind := .free }
    wordActive := s.wordActive.erase m
    thr := fun o => { s.thr o with
      heldList := if (s.wrec m).kind = .pi ∧ (s.wrec m).owner = some o then (s.thr o).heldList.erase m
        else (s.thr o).heldList } }

theorem wordWaiterLeft_eq : s.wordWaiterLeft m = if (s.wrec m).waiters = [] then s.freed m else s := by
  unfold wordWaiterLeft
  split_ifs with hw
  · unfold freed
    cases hk : (s.wrec m).kind <;> cases ho : (s.wrec m).owner <;>
      simp only [heldRemove, onThr, setThr, recordFree, onRec, Kernel.mk.injEq, and_true, true_and, reduceCtorEq,
        false_and, ↓reduceIte, Option.some.injEq]
    funext u
    rename_i o
    by_cases hu : u = o
    · subst hu; simp
    · simp [hu, Ne.symm hu]
  · rfl

theorem Recorded.fill (h : Recorded s hole) (hw : ∀ m, hole = some m → (s.wrec m).waiters ≠ []) : Recorded s none where
  active := h.active
  bound := h.bound
  nodup := h.nodup
  key_inj := h.key_inj
  idle := h.idle
  waited m hm _ := by
    by_cases hh : hole = some m
    · exact hw m hh
    · exact h.waited m hm hh
  owned := h.owned
  held := h.held
  held_nodup := h.held_nodup
  edge_pi := h.edge_pi
  edge_plain := h.edge_plain

theorem Recorded.freed (h : Recorded s hole) (hhole : hole = none ∨ hole = some m) (hw : (s.wrec m).waiters = []) :
    Recorded (s.freed m) none := by
  have hx : ∀ i, i ≠ m → (s.freed m).wrec i = s.wrec i := fun i hi => by simp [Kernel.freed, hi]
  have hself : (s.freed m).wrec m = { s.wrec m with owner := none, key := 0, kind := .free } := by simp [Kernel.freed]
  have hmem : ∀ i, i ∈ (s.freed m).wordActive ↔ i ≠ m ∧ i ∈ s.wordActive := fun i => h.nodup.mem_erase_iff
  refine ⟨fun i => ?_, fun i hi => ?_, ?_, fun i hi j hj e => ?_, fun i hi => ?_, fun i hi _ => ?_, fun i hi => ?_,
    fun o i => ?_, fun o => ?_, fun i hi u hu => ?_, fun i hi u hu => ?_⟩
  · by_cases hi : i = m
    · simp [hmem, hi, hself]
    · simpa [hmem, hi, hx] using h.active i
  · exact h.bound i ((hmem i).mp hi).2
  · exact h.nodup.erase m
  · obtain ⟨hi₁, hi₂⟩ := (hmem i).mp hi
    obtain ⟨hj₁, hj₂⟩ := (hmem j).mp hj
    rw [hx i hi₁, hx j hj₁] at e
    exact h.key_inj i hi₂ j hj₂ e
  · by_cases hi' : i = m
    · rw [hi', hself]; exact hw
    · rw [hx i hi'] at hi ⊢
      exact h.idle i hi
  · obtain ⟨hi₁, hi₂⟩ := (hmem i).mp hi
    rw [hx i hi₁]
    refine h.waited i hi₂ fun e => ?_
    rcases hhole with hh | hh <;> rw [hh] at e <;> cases e
    exact hi₁ rfl
  · by_cases hi' : i = m
    · rw [hi', hself] at hi; cases hi
    · rw [hx i hi'] at hi ⊢
      exact h.owned i hi
  · have ho := h.held o i
    by_cases hi' : i = m
    · subst hi'
      simp only [hself, reduceCtorEq, false_and, iff_false]
      simp only [Kernel.freed]
      split_ifs with hown
      · exact (h.held_nodup o).not_mem_erase
      · rwa [ho]
    · rw [hx i hi', ← ho]
      simp only [Kernel.freed]
      split_ifs
      · exact List.mem_erase_of_ne hi'
      · exact Iff.rfl
  · simp only [Kernel.freed]
    split_ifs
    · exact (h.held_nodup o).erase m
    · exact h.held_nodup o
  · by_cases hi' : i = m
    · rw [hi', hself] at hi; cases hi
    · rw [hx i hi'] at hi hu
      exact h.edge_pi i hi u hu
  · by_cases hi' : i = m
    · rw [hi', hself] at hi; cases hi
    · rw [hx i hi'] at hi hu
      exact h.edge_plain i hi u hu

theorem Placed.freed (h : Placed s D) : Placed (s.freed m) D := by
  have hl : ∀ pl, (s.freed m).listOf pl = s.listOf pl := fun pl => by
    cases pl with
    | record i => by_cases hi : i = m <;> simp [listOf, Kernel.freed, hi]
    | _ => rfl
  exact ⟨h.ready.same rfl rfl (fun _ => Iff.rfl) (fun _ _ => rfl), h.timed.same rfl (fun _ => rfl) (fun _ => id),
    h.links.same rfl (fun _ => Iff.rfl) (fun _ => rfl) (fun _ => rfl) hl⟩

theorem Recorded.unlink (h : Recorded s hole) (hhole : hole = none ∨ hole = some m) :
    Recorded (s.onQueue (.record m) fun l => l.erase t) (some m) := by
  have hx : ∀ i, i ≠ m → (s.onQueue (.record m) fun l => l.erase t).wrec i = s.wrec i := fun i hi => by
    simp [onQueue, onRec, hi]
  have hself : (s.onQueue (.record m) fun l => l.erase t).wrec m =
      { s.wrec m with waiters := (s.wrec m).waiters.erase t } := by simp [onQueue, onRec]
  have hrec : ∀ i, ((s.onQueue (.record m) fun l => l.erase t).wrec i).kind = (s.wrec i).kind ∧
      ((s.onQueue (.record m) fun l => l.erase t).wrec i).key = (s.wrec i).key ∧
      ((s.onQueue (.record m) fun l => l.erase t).wrec i).owner = (s.wrec i).owner := fun i => by
    by_cases hi : i = m
    · subst hi; rw [hself]; exact ⟨rfl, rfl, rfl⟩
    · rw [hx i hi]; exact ⟨rfl, rfl, rfl⟩
  have hsub : ∀ i, ∀ u ∈ ((s.onQueue (.record m) fun l => l.erase t).wrec i).waiters, u ∈ (s.wrec i).waiters :=
    fun i u hu => by
      by_cases hi : i = m
      · subst hi; rw [hself] at hu; exact List.mem_of_mem_erase hu
      · rwa [hx i hi] at hu
  refine ⟨fun i => ?_, h.bound, h.nodup, fun i hi j hj e => ?_, fun i hi => ?_, fun i hi hne => ?_, fun i hi => ?_,
    fun o i => ?_, h.held_nodup, fun i hi u hu => ?_, fun i hi u hu => ?_⟩
  · rw [(hrec i).1]; exact h.active i
  · rw [(hrec i).2.1, (hrec j).2.1] at e
    exact h.key_inj i hi j hj e
  · rw [(hrec i).1] at hi
    have := h.idle i hi
    by_cases hi' : i = m
    · subst hi'; rw [hself, this]; rfl
    · rw [hx i hi', this]
  · have hi' : i ≠ m := fun e => hne (by rw [e])
    rw [hx i hi']
    exact h.waited i hi (by rcases hhole with rfl | rfl <;> simp [Ne.symm hi'])
  · rw [(hrec i).1] at hi
    rw [(hrec i).2.2]; exact h.owned i hi
  · rw [(hrec i).1, (hrec i).2.2]; exact h.held o i
  · rw [(hrec i).1] at hi
    exact h.edge_pi i hi u (hsub i u hu)
  · rw [(hrec i).1] at hi
    exact h.edge_plain i hi u (hsub i u hu)

theorem Recorded.waiterLeft (h : Recorded s (some m)) : Recorded (s.wordWaiterLeft m) none := by
  rw [wordWaiterLeft_eq]
  split_ifs with hw
  · exact h.freed (.inr rfl) hw
  · exact h.fill fun i hi => by cases hi; exact hw

theorem Placed.wordWaiterLeft (h : Placed s D) : Placed (s.wordWaiterLeft m) D := by
  rw [wordWaiterLeft_eq]
  split_ifs
  · exact h.freed
  · exact h

/-! ### A record changes hands -/

/-- The state with record `m` of `c` handed to `w`, which leaves the record's queue. -/
def handed (s : Kernel) (c : Tid) (m : Rid) (w : Tid) (status : Answer) : Kernel :=
  { s with
    words := update s.words (s.wrec m).key
      { value := (s.thr w).lockId, waiters := !((s.wrec m).waiters.erase w).isEmpty }
    wrec := update s.wrec m { s.wrec m with owner := some w, waiters := (s.wrec m).waiters.erase w }
    thr := update (update s.thr c { s.thr c with heldList := (s.thr c).heldList.erase m }) w
      { s.thr w with queue := none, edge := .none, waitResult := status, heldList := m :: (s.thr w).heldList } }

/-- A record whose last waiter got it is freed. -/
def handedOver (s : Kernel) (c : Tid) (m : Rid) (w : Tid) (status : Answer) : Kernel :=
  if (s.wrec m).waiters.erase w = [] then (s.handed c m w status).freed m else s.handed c m w status

theorem heldRemove_recordFree (hk : (s.wrec m).kind = .pi) (ho : (s.wrec m).owner = some o) :
    (s.heldRemove o m).recordFree m = s.freed m := by
  simp only [heldRemove, onThr, setThr, recordFree, onRec, Kernel.freed, hk, ho, true_and, Kernel.mk.injEq, and_true,
    Option.some.injEq]
  funext u
  by_cases hu : u = o
  · subst hu; simp
  · simp [hu, Ne.symm hu]

theorem handOver_eq {r : Answer} (hk : (s.wrec m).kind = .pi)
    (hw : s.wqPeekHighest (s.wrec m).waiters = some w) (hcw : c ≠ w) :
    (s.heldRemove c m).handOver m w r = s.handedOver c m w r := by
  -- the pop takes `w`: the writes in front of it move no priority and no waiter
  let s₁ := (s.heldRemove c m).setWord (s.wrec m).key
    { value := ((s.heldRemove c m).thr w).lockId, waiters := !((s.wrec m).waiters.erase w).isEmpty }
  have hprio : ∀ u, (s₁.thr u).prio = (s.thr u).prio :=
    field_onThr (s := s) (t := c) (f := fun x => { x with heldList := x.heldList.erase m }) Thread.prio rfl
  have hpop : s₁.wqPopHighest (.record m) = ((s₁.onQueue (.record m) fun l => l.erase w).clearWaitEdge w, some w) := by
    unfold wqPopHighest
    rw [wqPeekHighest_congr hprio, show s₁.queueOf (.record m) = (s.wrec m).waiters from rfl, hw]
  have hmain : ((s₁.onQueue (.record m) fun l => l.erase w).clearWaitEdge w).transferTo m w r =
      s.handed c m w r := by
    simp only [s₁, transferTo, clearWaitEdge, heldPush, heldRemove, onThr, setThr, setWord, onQueue, onRec, handed,
      update_self, update_of_ne hcw.symm, update_idem]
  have hself : (s.handed c m w r).wrec m =
      { s.wrec m with owner := some w, waiters := (s.wrec m).waiters.erase w } := by simp [handed]
  have hunfold : (s.heldRemove c m).handOver m w r =
      if (((s₁.wqPopHighest (.record m)).1.transferTo m w r).wrec m).waiters = [] then
        (((s₁.wqPopHighest (.record m)).1.transferTo m w r).heldRemove w m).recordFree m
      else (s₁.wqPopHighest (.record m)).1.transferTo m w r := rfl
  rw [hunfold, hpop, hmain, hself, heldRemove_recordFree (by rw [hself]; exact hk) (by rw [hself])]
  rfl

/-- A turn of the loop of a death: the record at the head of the held list goes to its first waiter. -/
theorem mutexOwnerExit_cons {n : Nat} {rest : List Rid} (hheld : (s.thr c).heldList = m :: rest) (hk : (s.wrec m).kind = .pi)
    (hw : s.wqPeekHighest (s.wrec m).waiters = some w) (hcw : c ≠ w) :
    Kernel.mutexOwnerExit c (n + 1) s = Kernel.mutexOwnerExit c n ((s.handedOver c m w (.error .eownerdead)).wake w) := by
  have hpeek : (s.heldRemove c m).wqPeekHighest ((s.heldRemove c m).wrec m).waiters = some w := by
    rw [← hw]
    exact wqPeekHighest_congr (fun u => field_onThr Thread.prio rfl u) _
  rw [Kernel.mutexOwnerExit, hheld]
  dsimp only
  rw [hpeek, ← handOver_eq hk hw hcw]

theorem Recorded.handed {r : Answer} (h : Recorded s none) (hp : Placed s D) (hk : (s.wrec m).kind = .pi)
    (ho : (s.wrec m).owner = some c) (hw : w ∈ (s.wrec m).waiters) (hcw : c ≠ w) :
    Recorded (s.handed c m w r) (some m) := by
  have hx : ∀ i, i ≠ m → (s.handed c m w r).wrec i = s.wrec i := fun i hi => by simp [Kernel.handed, hi]
  have hself : (s.handed c m w r).wrec m =
      { s.wrec m with owner := some w, waiters := (s.wrec m).waiters.erase w } := by simp [Kernel.handed]
  have hrec : ∀ i, ((s.handed c m w r).wrec i).kind = (s.wrec i).kind ∧
      ((s.handed c m w r).wrec i).key = (s.wrec i).key := fun i => by
    by_cases hi : i = m
    · subst hi; rw [hself]; exact ⟨rfl, rfl⟩
    · rw [hx i hi]; exact ⟨rfl, rfl⟩
  have hedge : ∀ u, u ≠ w → ((s.handed c m w r).thr u).edge = (s.thr u).edge := fun u hu => by
    by_cases huc : u = c
    · subst huc; simp [Kernel.handed, hu]
    · simp [Kernel.handed, hu, huc]
  -- `w` is on no record any more
  have hwait : ∀ i, ∀ u ∈ ((s.handed c m w r).wrec i).waiters, u ∈ (s.wrec i).waiters ∧ u ≠ w := by
    intro i u hu
    by_cases hi : i = m
    · subst hi
      rw [hself] at hu
      obtain ⟨h1, h2⟩ := (hp.links.nodup (.record i)).mem_erase_iff.mp hu
      exact ⟨h2, h1⟩
    · rw [hx i hi] at hu
      refine ⟨hu, fun e => hi ?_⟩
      have h1 := (hp.links.listed (.record i) u hu).1
      rw [e, (hp.links.listed (.record m) w hw).1] at h1
      simpa using h1.symm
  have hheld : ∀ u, ((s.handed c m w r).thr u).heldList =
      if u = w then m :: (s.thr w).heldList else if u = c then (s.thr c).heldList.erase m else (s.thr u).heldList := by
    intro u
    by_cases hu : u = w
    · subst hu; simp [Kernel.handed]
    · by_cases huc : u = c
      · subst huc; simp [Kernel.handed, hu]
      · simp [Kernel.handed, hu, huc]
  have hmw : m ∉ (s.thr w).heldList := fun hm => by
    have := ((h.held w m).mp hm).2
    rw [ho] at this
    exact hcw (Option.some.inj this)
  refine ⟨fun i => ?_, h.bound, h.nodup, fun i hi j hj e => ?_, fun i hi => ?_, fun i hi hne => ?_, fun i hi => ?_,
    fun u i => ?_, fun u => ?_, fun i hi u hu => ?_, fun i hi u hu => ?_⟩
  · rw [(hrec i).1]; exact h.active i
  · rw [(hrec i).2, (hrec j).2] at e
    exact h.key_inj i hi j hj e
  · rw [(hrec i).1] at hi
    have hi' : i ≠ m := by
      rintro rfl
      rw [hk] at hi; cases hi
    rw [hx i hi']; exact h.idle i hi
  · have hi' : i ≠ m := fun e => hne (by rw [e])
    rw [hx i hi']; exact h.waited i hi (by simp)
  · by_cases hi' : i = m
    · rw [hi', hself]; simp
    · rw [hx i hi'] at hi ⊢
      exact h.owned i hi
  · rw [hheld]
    have hu := h.held u i
    have hci := h.held c i
    have hwi := h.held w i
    by_cases hi : i = m
    · subst hi
      have hnc : i ∉ (s.thr c).heldList.erase i := (h.held_nodup c).not_mem_erase
      rw [hself]
      split_ifs with h1 h2
      · simp [hk, h1]
      · simp [hnc, Ne.symm h1]
      · rw [hu, ho]
        simp [Ne.symm h1, Ne.symm h2]
    · rw [hx i hi]
      split_ifs with h1 h2
      · rw [h1, ← hwi]; simp [hi]
      · rw [h2, ← hci]; exact List.mem_erase_of_ne hi
      · exact hu
  · rw [hheld]
    split_ifs
    · exact List.nodup_cons.mpr ⟨hmw, h.held_nodup w⟩
    · exact (h.held_nodup c).erase m
    · exact h.held_nodup u
  · rw [(hrec i).1] at hi
    obtain ⟨h1, h2⟩ := hwait i u hu
    rw [hedge u h2]; exact h.edge_pi i hi u h1
  · rw [(hrec i).1] at hi
    obtain ⟨h1, h2⟩ := hwait i u hu
    rw [hedge u h2]; exact h.edge_plain i hi u h1

theorem Recorded.handedOver {r : Answer} (h : Recorded s none) (hp : Placed s D) (hk : (s.wrec m).kind = .pi)
    (ho : (s.wrec m).owner = some c) (hw : w ∈ (s.wrec m).waiters) (hcw : c ≠ w) :
    Recorded (s.handedOver c m w r) none := by
  have h1 := h.handed (r := r) hp hk ho hw hcw
  have hself : ((s.handed c m w r).wrec m).waiters = (s.wrec m).waiters.erase w := by simp [Kernel.handed]
  unfold Kernel.handedOver
  split_ifs with hl
  · exact h1.freed (.inr rfl) (hself.trans hl)
  · exact h1.fill fun i hi => by cases hi; rwa [hself]

theorem Placed.handedOver {r : Answer} (h : Placed s D) (hw : w ∈ (s.wrec m).waiters) (hcw : c ≠ w) :
    Placed (s.handedOver c m w r) (w :: D) := by
  have h1 : Placed (s.handed c m w r) (w :: D) := by
    have hpop := (h.onThr (t := c) (f := fun x => { x with heldList := x.heldList.erase m }) rfl).popped
      (q := .record m) (t := w) hw
    have hrec := hpop.onRec (m := m) (f := fun x => { x with owner := some w }) rfl
    have hthr := hrec.onThr (t := w) (f := fun x => { x with waitResult := r, heldList := m :: x.heldList }) rfl
    refine hthr.of_eq rfl ?_ rfl rfl ?_ rfl
    · simp only [Kernel.handed, Kernel.onThr, setThr, Kernel.clearWaitEdge, onQueue, Kernel.onRec, update_self,
        update_of_ne hcw.symm, update_idem]
    · simp only [Kernel.handed, Kernel.onThr, setThr, Kernel.clearWaitEdge, onQueue, Kernel.onRec, update_self,
        update_idem]
  unfold Kernel.handedOver
  split_ifs
  · exact h1.freed
  · exact h1

theorem handedOver_edge {r : Answer} :
    ((s.handedOver c m w r).thr w).edge = .none ∧ ((s.handedOver c m w r).thr w).queue = none := by
  unfold handedOver
  split_ifs <;> simp [handed, freed]

/-- A handover writes the queue, the edge, the r and the held lists of threads, and nothing else of them. -/
theorem handedOver_field {α : Type} {r : Answer} (g : Thread → α)
    (hg : ∀ y q e r l, g { y with queue := q, edge := e, waitResult := r, heldList := l } = g y) (u : Tid) :
    g ((s.handedOver c m w r).thr u) = g (s.thr u) := by
  have hh : g ((s.handed c m w r).thr u) = g (s.thr u) := by
    by_cases huw : u = w
    · subst huw; simpa [handed] using hg (s.thr u) none .none r (m :: (s.thr u).heldList)
    · by_cases huc : u = c
      · subst huc
        simpa [handed, huw] using hg (s.thr u) (s.thr u).queue (s.thr u).edge (s.thr u).waitResult _
      · simp [handed, huw, huc]
  unfold handedOver
  split_ifs
  · have := hg ((s.handed c m w r).thr u) ((s.handed c m w r).thr u).queue
      ((s.handed c m w r).thr u).edge ((s.handed c m w r).thr u).waitResult
    exact (this _).trans hh
  · exact hh

theorem handedOver_edge_of_ne {r : Answer} (hu : u ≠ w) : ((s.handedOver c m w r).thr u).edge = (s.thr u).edge := by
  have hh : ((s.handed c m w r).thr u).edge = (s.thr u).edge := by
    by_cases huc : u = c
    · subst huc; simp [handed, hu]
    · simp [handed, hu, huc]
  unfold handedOver
  split_ifs
  · exact hh
  · exact hh

theorem handedOver_heldList {r : Answer} (hcw : c ≠ w) :
    ((s.handedOver c m w r).thr c).heldList = (s.thr c).heldList.erase m := by
  have hh : ((s.handed c m w r).thr c).heldList = (s.thr c).heldList.erase m := by simp [handed, hcw]
  unfold handedOver
  split_ifs
  · simp [freed, handed, hcw, Ne.symm hcw]
  · exact hh

end Kernel
end KickOS
