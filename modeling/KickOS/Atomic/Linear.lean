import KickOS.Atomic.Model

/-! The calls take effect one after the other on the separate objects, and none moves a byte of another. -/

namespace KickOS.Atomic
open Lib
open Function (update update_eq_self update_of_ne update_self)

variable {Obj Tid : Type} {L : Layout Obj} {big : Bool}

/-! ### One call -/

section Call

variable {T : Size} {c : Call T} {held : BitVec T.bits}

theorem seq_goes (h : c.Goes held) : c.seq held = (c.now held, c.answer held) := by
  cases c with
  | modify op v answersNow => rfl
  | compareExchange expected desired => exact if_pos h

theorem seq_refused (h : ¬ c.Goes held) : c.seq held = (held, .refused held) := by
  cases c with
  | modify op v answersNow => exact absurd trivial h
  | compareExchange expected desired => exact if_neg h

end Call

/-! ### Memory -/

section Memory

variable {mem : Nat → BitVec 32}

theorem valuesOf_update [DecidableEq Obj] (o : Obj) (now : BitVec (L.size o).bits) :
    valuesOf big L (update mem (lane big L o).word ((lane big L o).next (mem (lane big L o).word) now)) =
      update (valuesOf big L mem) o now := by
  funext o'
  by_cases ho : o' = o
  · subst ho
    rw [update_self]
    unfold valuesOf
    rw [update_self]
    exact field_next (L.aligned o') _ _
  · rw [update_of_ne ho]
    unfold valuesOf
    by_cases hw : (lane big L o').word = (lane big L o).word
    · rw [hw, update_self]
      exact field_next_apart (L.aligned o) (L.aligned o') hw.symm (L.apart o o' (Ne.symm ho)) _ _
    · rw [update_of_ne hw]

theorem byte_update (o : Obj) (now : BitVec (L.size o).bits) {b : Nat} (hb : b < L.addr o ∨ L.addr o + (L.size o).bytes ≤ b) :
    byteOf big (update mem (lane big L o).word ((lane big L o).next (mem (lane big L o).word) now) (b - b % 4)) (b % 4) =
      byteOf big (mem (b - b % 4)) (b % 4) := by
  by_cases hw : b - b % 4 = (lane big L o).word
  · rw [hw, update_self]
    exact byteOf_next (L.aligned o) hw.symm hb _ _
  · rw [update_of_ne hw]

end Memory

/-! ### Bytes -/

section Bytes

variable [DecidableEq Tid] {x y : Sys L Tid} {t : Tid}

def Act.tid : Act L Tid → Tid
  | .call t _ | .load t | .swap t | .ret t => t

def Pc.object? : Pc L → Option Obj
  | .idle => none
  | .start _ op | .loop _ op _ => some op.1
  | .done _ r => some r.1

theorem look_mem (x : Sys L Tid) (i : Nat) (op : Op L) (w : BitVec 32) : (x.look big t i op w).mem = x.mem := by
  unfold Sys.look
  split
  · rfl
  · rfl

theorem step_byte {a : Act L Tid} (hs : x.step big a = some y) {b : Nat}
    (hb : ∀ o, (x.pc a.tid).object? = some o → b < L.addr o ∨ L.addr o + (L.size o).bytes ≤ b) : y.byte big b = x.byte big b := by
  cases a with
  | call t op =>
    dsimp only [Sys.step] at hs
    split at hs
    next =>
      cases hs
      rfl
    next => cases hs
  | load t =>
    dsimp only [Sys.step] at hs
    split at hs
    next =>
      cases hs
      unfold Sys.byte
      rw [look_mem]
    next => cases hs
  | swap t =>
    dsimp only [Sys.step] at hs
    split at hs
    next i op w hp =>
      cases hs
      have hb := hb op.1 (by rw [Act.tid, hp]; rfl)
      unfold Sys.swap
      dsimp only
      split
      next hw =>
        subst hw
        exact byte_update op.1 _ hb
      next =>
        unfold Sys.byte
        rw [look_mem]
    next => cases hs
  | ret t =>
    dsimp only [Sys.step] at hs
    split at hs
    next =>
      cases hs
      rfl
    next => cases hs

end Bytes

/-! ### The invariant -/

def Pc.id? : Pc L → Option Nat
  | .idle => none
  | .start i _ | .loop i _ _ | .done i _ => some i

def Here (big : Bool) (hist : List (Event Nat (Op L) (Res L))) (lin : List (Nat × Op L × Res L)) : Pc L → Prop
  | .idle => True
  | .start i op => .call i op ∈ hist ∧ i ∉ ids lin
  | .loop i op w => (.call i op ∈ hist ∧ i ∉ ids lin) ∧ op.2.Goes ((lane big L op.1).field _ w)
  | .done i r => ∃ op, (i, op, r) ∈ lin

section Here

variable {hist : List (Event Nat (Op L) (Res L))} {lin : List (Nat × Op L × Res L)} {p : Pc L}

theorem Here.event (h : Here big hist lin p) (e : Event Nat (Op L) (Res L)) : Here big (hist ++ [e]) lin p := by
  cases p with
  | idle => trivial
  | start i op => exact ⟨List.mem_append_left _ h.1, h.2⟩
  | loop i op w => exact ⟨⟨List.mem_append_left _ h.1.1, h.1.2⟩, h.2⟩
  | done i r => exact h

theorem Here.other (h : Here big hist lin p) {j : Nat} (hj : p.id? ≠ some j) (op : Op L) (r : Res L) :
    Here big hist (lin ++ [(j, op, r)]) p := by
  have hids : ids (lin ++ [(j, op, r)]) = ids lin ++ [j] := List.map_append
  have hnot {i : Nat} (hi : i ∉ ids lin) (hne : some i ≠ some j) : i ∉ ids (lin ++ [(j, op, r)]) := by
    rw [hids]
    intro hm
    rcases List.mem_append.1 hm with hm | hm
    · exact hi hm
    · exact hne (congrArg some (List.mem_singleton.1 hm))
  cases p with
  | idle => trivial
  | start i op' => exact ⟨h.1, hnot h.2 hj⟩
  | loop i op' w => exact ⟨⟨h.1.1, hnot h.1.2 hj⟩, h.2⟩
  | done i r' =>
    obtain ⟨op', h⟩ := h
    exact ⟨op', List.mem_append_left _ h⟩

end Here

section Update

variable [DecidableEq Tid] {pc : Tid → Pc L} {t : Tid}

theorem own_update (h : ∀ t t' i, (pc t).id? = some i → (pc t').id? = some i → t = t') {p : Pc L}
    (hp : ∀ i, p.id? = some i → (pc t).id? = some i ∨ ∀ t', (pc t').id? ≠ some i) :
    ∀ u u' i, (update pc t p u).id? = some i → (update pc t p u').id? = some i → u = u' := by
  intro u u' i hu hu'
  by_cases hut : u = t
  · by_cases hut' : u' = t
    · rw [hut, hut']
    · subst hut
      rw [update_self] at hu
      rw [update_of_ne hut'] at hu'
      rcases hp i hu with hold | hnew
      · exact h u u' i hold hu'
      · exact absurd hu' (hnew u')
  · rw [update_of_ne hut] at hu
    by_cases hut' : u' = t
    · subst hut'
      rw [update_self] at hu'
      rcases hp i hu' with hold | hnew
      · exact h u u' i hu hold
      · exact absurd hu (hnew u)
    · rw [update_of_ne hut'] at hu'
      exact h u u' i hu hu'

theorem here_update {hist : List (Event Nat (Op L) (Res L))} {lin : List (Nat × Op L × Res L)}
    (h : ∀ u, u ≠ t → Here big hist lin (pc u)) {p : Pc L} (hp : Here big hist lin p) (u : Tid) :
    Here big hist lin (update pc t p u) := by
  by_cases hu : u = t
  · subst hu
    rw [update_self]
    exact hp
  · rw [update_of_ne hu]
    exact h u hu

end Update

section Inv

variable [DecidableEq Obj] {init : Values L} {x y : Sys L Tid} {t : Tid}

structure Inv (big : Bool) (init : Values L) (x : Sys L Tid) : Prop where
  lin : Linearizes L.seq init x.hist x.lin (x.values big)
  fresh : ∀ i op, .call i op ∈ x.hist → i < x.serial
  here : ∀ t, Here big x.hist x.lin (x.pc t)
  own : ∀ t t' i, (x.pc t).id? = some i → (x.pc t').id? = some i → t = t'

theorem Inv.called (h : Inv big init x) {i : Nat} (hi : (x.pc t).id? = some i) : i < x.serial := by
  have hh := h.here t
  cases hp : x.pc t with
  | idle =>
    rw [hp] at hi
    cases hi
  | start j op =>
    rw [hp] at hi hh
    cases hi
    exact h.fresh _ _ hh.1
  | loop j op w =>
    rw [hp] at hi hh
    cases hi
    exact h.fresh _ _ hh.1.1
  | done j r =>
    rw [hp] at hi hh
    cases hi
    obtain ⟨op, hm⟩ := hh
    exact h.fresh _ _ (h.lin.called _ _ _ hm)

variable [DecidableEq Tid]

theorem Inv.finish (h : Inv big init x) {i : Nat} {op : Op L} (hi : (x.pc t).id? = some i) (hc : .call i op ∈ x.hist)
    (hn : i ∉ ids x.lin) {a : Answer (L.size op.1)} {mem : Nat → BitVec 32}
    (hseq : L.seq op (x.values big) = (valuesOf big L mem, ⟨op.1, a⟩)) :
    Inv big init { x.finish t i op a with mem := mem } := by
  have hlin := h.lin.take hc hn
  rw [hseq] at hlin
  refine ⟨hlin, h.fresh, here_update (fun u hu => (h.here u).other (fun hui => hu (h.own u t i hui hi)) _ _) ⟨op, ?_⟩,
    own_update h.own fun j hj => ?_⟩
  · exact List.mem_append_right _ List.mem_cons_self
  · cases hj
    exact .inl hi

theorem Inv.look (h : Inv big init x) {i : Nat} {op : Op L} (hi : (x.pc t).id? = some i) (hc : .call i op ∈ x.hist)
    (hn : i ∉ ids x.lin) : Inv big init (x.look big t i op (x.mem (lane big L op.1).word)) := by
  unfold Sys.look
  split
  next hgoes =>
    refine ⟨h.lin, h.fresh, here_update (fun u _ => h.here u) ⟨⟨hc, hn⟩, hgoes⟩, own_update h.own fun j hj => ?_⟩
    cases hj
    exact .inl hi
  next hgoes =>
    refine h.finish hi hc hn ?_
    unfold Layout.seq
    have hseq : op.2.seq (x.values big op.1) = (x.values big op.1, .refused (x.values big op.1)) := seq_refused hgoes
    rw [hseq, update_eq_self]
    rfl

theorem Inv.swap (h : Inv big init x) {i : Nat} {op : Op L} {w : BitVec 32} (hp : x.pc t = .loop i op w) :
    Inv big init (x.swap big t i op w) := by
  have hh := h.here t
  rw [hp] at hh
  obtain ⟨⟨hc, hn⟩, hgoes⟩ := hh
  have hi : (x.pc t).id? = some i := by rw [hp]; rfl
  unfold Sys.swap
  dsimp only
  split
  next hw =>
    subst hw
    refine h.finish hi hc hn ?_
    unfold Layout.seq
    have hseq : op.2.seq (x.values big op.1) = (op.2.now (x.values big op.1), op.2.answer (x.values big op.1)) := seq_goes hgoes
    rw [hseq, valuesOf_update]
    rfl
  next hw => exact h.look hi hc hn

theorem Inv.call (h : Inv big init x) (op : Op L) :
    Inv big init { x.goto t (.start x.serial op) with serial := x.serial + 1, hist := x.hist ++ [.call x.serial op] } := by
  have hnew (op : Op L) : .call x.serial op ∉ x.hist := fun hm => Nat.lt_irrefl _ (h.fresh _ _ hm)
  refine ⟨h.lin.call hnew op, fun i op' hm => ?_, here_update (fun u _ => (h.here u).event _) ⟨?_, fun hm => ?_⟩,
    own_update h.own fun j hj => ?_⟩
  · rcases List.mem_append.1 hm with hm | hm
    · exact (h.fresh i op' hm).trans (Nat.lt_succ_self _)
    · cases List.mem_singleton.1 hm
      exact Nat.lt_succ_self _
  · exact List.mem_append_right _ List.mem_cons_self
  · obtain ⟨e, he, hid⟩ := List.mem_map.1 hm
    exact hnew e.2.1 (hid ▸ h.lin.called e.1 e.2.1 e.2.2 he)
  · cases hj
    exact .inr fun t' ht' => Nat.lt_irrefl _ (h.called ht')

theorem Inv.ret (h : Inv big init x) {i : Nat} {r : Res L} (hp : x.pc t = .done i r) :
    Inv big init { x.goto t .idle with hist := x.hist ++ [.ret i r] } := by
  have hh := h.here t
  rw [hp] at hh
  obtain ⟨op, hm⟩ := hh
  refine ⟨h.lin.ret hm, fun j op' hj => ?_, here_update (fun u _ => (h.here u).event _) trivial,
    own_update h.own fun j hj => absurd hj (by simp [Pc.id?])⟩
  rcases List.mem_append.1 hj with hj | hj
  · exact h.fresh j op' hj
  · cases List.mem_singleton.1 hj

theorem Inv.step (h : Inv big init x) {a : Act L Tid} (hs : x.step big a = some y) : Inv big init y := by
  cases a with
  | call t op =>
    dsimp only [Sys.step] at hs
    split at hs
    next hp =>
      cases hs
      exact h.call op
    next => cases hs
  | load t =>
    dsimp only [Sys.step] at hs
    split at hs
    next i op hp =>
      cases hs
      have hh := h.here t
      rw [hp] at hh
      exact h.look (by rw [hp]; rfl) hh.1 hh.2
    next => cases hs
  | swap t =>
    dsimp only [Sys.step] at hs
    split at hs
    next i op w hp =>
      cases hs
      exact h.swap hp
    next => cases hs
  | ret t =>
    dsimp only [Sys.step] at hs
    split at hs
    next i r hp =>
      cases hs
      exact h.ret hp
    next => cases hs

theorem Reachable.inv {mem : Nat → BitVec 32} (h : Reachable big L mem x) : Inv big (valuesOf big L mem) x := by
  induction h with
  | init =>
    refine ⟨linearizes_nil _ _, fun i op hm => absurd hm List.not_mem_nil, fun t => trivial,
      fun t t' i hi => absurd hi (by simp [Pc.id?])⟩
  | step a _ hs ih => exact ih.step hs

/-! ### Runs -/

/-- The answer of a call is one for its object, and a refusal has a value that the call does not expect. -/
theorem refused_of_seq {op : Op L} {s : Values L} {o : Obj} {held : BitVec (L.size o).bits}
    (h : (L.seq op s).2 = ⟨o, .refused held⟩) : ∃ expected desired, op = ⟨o, .compareExchange expected desired⟩ ∧
    held ≠ expected ∧ s o = held := by
  obtain ⟨o', c⟩ := op
  obtain ⟨rfl, h⟩ := Sigma.mk.inj_iff.1 h
  have h := eq_of_heq h
  cases c with
  | modify op v answersNow => cases h
  | compareExchange expected desired =>
    dsimp only [Call.seq] at h
    split at h
    next => cases h
    next hne =>
      cases h
      exact ⟨expected, desired, rfl, hne, rfl⟩

/-- In every run the history is linearized on the separate objects, a step keeps the bytes outside the object of its
thread, and a refusal has a value its object held and the call does not expect. -/
theorem atomics_linearize {mem : Nat → BitVec 32} (h : Reachable big L mem x) :
    Linearizes L.seq (valuesOf big L mem) x.hist x.lin (x.values big) ∧
    (∀ a y b, x.step big a = some y → (∀ o, (x.pc a.tid).object? = some o → b < L.addr o ∨ L.addr o + (L.size o).bytes ≤ b) →
      y.byte big b = x.byte big b) ∧
    ∀ i o held, .ret i ⟨o, .refused held⟩ ∈ x.hist → ∃ expected desired pre post s,
      .call i ⟨o, .compareExchange expected desired⟩ ∈ x.hist ∧ held ≠ expected ∧
      x.lin = pre ++ (i, ⟨o, .compareExchange expected desired⟩, ⟨o, .refused held⟩) :: post ∧
      Legal L.seq (valuesOf big L mem) pre s ∧ s o = held := by
  have hlin := h.inv.lin
  refine ⟨hlin, fun a y b hs hb => step_byte hs hb, fun i o held hm => ?_⟩
  obtain ⟨op, hm⟩ := hlin.returned _ _ hm
  obtain ⟨pre, post, s, hsplit, hpre, hr⟩ := hlin.legal.mem hm
  obtain ⟨expected, desired, rfl, hne, hheld⟩ := refused_of_seq hr
  exact ⟨expected, desired, pre, post, s, hlin.called _ _ _ hm, hne, hsplit, hpre, hheld⟩

end Inv

def pair : Layout Bool where
  size _ := .one
  addr o := o.toNat
  aligned o := Nat.one_dvd _
  apart o o' h := by
    cases o <;> cases o' <;> simp [Size.bytes] at h ⊢

/-- An add of one to the first byte, and an exchange of the second. -/
def addOne : Op pair := ⟨false, .modify .add (1 : BitVec 8) false⟩

def setFive : Op pair := ⟨true, .modify .set (5 : BitVec 8) false⟩

/-- The add on one byte, with the exchange on the other between its load and its compare-and-swap. -/
theorem atomics_linearize_pair : ∃ x : Sys pair Bool, Reachable false pair (fun _ => 0) x ∧ x.hist.length = 4 ∧
    x.values false false = 1#8 ∧ x.values false true = 5#8 ∧
      Linearizes pair.seq (valuesOf false pair fun _ => 0) x.hist x.lin (x.values false) := by
  have h0 : Reachable false pair (fun _ => 0) ({ mem := fun _ => 0 } : Sys pair Bool) := .init
  have h1 := h0.step (.call false addOne) rfl
  have h2 := h1.step (.load false) rfl
  have h3 := h2.step (.call true setFive) rfl
  have h4 := h3.step (.load true) rfl
  have h5 := h4.step (.swap true) rfl
  have h6 := h5.step (.ret true) rfl
  have h7 := h6.step (.swap false) rfl
  have h8 := h7.step (.swap false) rfl
  have h9 := h8.step (.ret false) rfl
  exact ⟨_, h9, rfl, rfl, rfl, (atomics_linearize h9).1⟩

end KickOS.Atomic
