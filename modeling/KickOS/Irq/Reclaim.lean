import KickOS.Irq.Publish

/-! The invariant of the records: what the chains and the lines' words say, and that an entry which may touch a record keeps it
from its reclaim. -/

namespace KickOS
namespace Publish
namespace State
open Function (update update_apply update_eq_self update_of_ne update_self)

variable {d : Build} {s s' : State} {k r i line : Nat}

/-- The records a reclaim has still to visit. -/
def walk : Kop → List Nat
  | .reclaiming rest _ _ => rest
  | _ => []

/-- What a line's word says of a record in a state. -/
def wordOf (r : Nat) : PubState → Word
  | .live => .live r
  | _ => .retiring r

/-- The chains, the words of the lines, and the bindings the records name. -/
structure Chained (d : Build) (s : State) : Prop where
  freeNodup : s.free.Nodup
  pendingNodup : s.pending.Nodup
  drainingNodup : (s.draining ++ walk s.kop).Nodup
  free : ∀ r, r ∈ s.free ↔ 0 < r ∧ r < d.slots ∧ s.pubState r = .free
  pending : ∀ r, r ∈ s.pending ↔ s.pubState r = .pending
  draining : ∀ r, r ∈ s.draining ++ walk s.kop ↔ s.pubState r = .draining
  range : ∀ r, s.pubState r ≠ .free → 0 < r ∧ r < d.slots
  named : ∀ r, s.pubState r ≠ .free → ∃ line, s.pubLine r = some line ∧ s.word line = wordOf r (s.pubState r)
  word : ∀ line r, s.word line = .live r ∨ s.word line = .retiring r → s.pubState r ≠ .free ∧ s.pubLine r = some line
  event : ∀ r i, s.pubState r ≠ .free → s.pub r = .event i → ∃ b, s.bindings i = some b ∧ s.pubLine r = some b.line ∧
    (s.pubState r = .live → 0 < b.refs) ∧ (s.pubState r ≠ .live → s.pubBinding r = some i)
  bound : ∀ i b, s.bindings i = some b → ∃ r, s.pubState r ≠ .free ∧ s.pub r = .event i ∧ s.pubLine r = some b.line ∧
    (0 < b.refs → s.pubState r = .live)
  owes : ∀ r i, s.pubState r ≠ .free → s.pubBinding r = some i → s.pub r = .event i

theorem Chained.word_state (h : Chained d s) (hr : s.pubState r ≠ .free) (hl : s.pubLine r = some line) :
    s.word line = wordOf r (s.pubState r) := by
  obtain ⟨l, h1, h2⟩ := h.named r hr
  rw [hl] at h1
  cases h1
  exact h2

theorem Chained.live (h : Chained d s) (hw : s.word line = .live r) : s.pubState r = .live ∧ s.pubLine r = some line := by
  obtain ⟨h1, h2⟩ := h.word line r (.inl hw)
  have h3 := h.word_state h1 h2
  rw [hw] at h3
  refine ⟨?_, h2⟩
  cases hs : s.pubState r with
  | live => rfl
  | free => exact absurd hs h1
  | pending =>
    rw [hs] at h3
    cases h3
  | draining =>
    rw [hs] at h3
    cases h3

theorem Chained.line_inj (h : Chained d s) {q : Nat} (hr : s.pubState r ≠ .free) (hq : s.pubState q ≠ .free)
    (hl : s.pubLine r = some line) (hl' : s.pubLine q = some line) : r = q := by
  have h1 := h.word_state hr hl
  rw [h.word_state hq hl'] at h1
  cases hsr : s.pubState r <;> cases hsq : s.pubState q <;> rw [hsr, hsq] at h1 <;> cases h1 <;> rfl

theorem Chained.event_inj (h : Chained d s) {q : Nat} (hr : s.pubState r ≠ .free) (hq : s.pubState q ≠ .free)
    (he : s.pub r = .event i) (he' : s.pub q = .event i) : r = q := by
  obtain ⟨b, hb, hl, -⟩ := h.event r i hr he
  obtain ⟨b', hb', hl', -⟩ := h.event q i hq he'
  rw [hb] at hb'
  cases hb'
  exact h.line_inj hr hq hl hl'

theorem Chained.same (h : Chained d s) (h1 : s'.word = s.word) (h2 : s'.pub = s.pub) (h3 : s'.pubState = s.pubState)
    (h4 : s'.pubBinding = s.pubBinding) (h5 : s'.pubLine = s.pubLine) (h6 : s'.free = s.free) (h7 : s'.pending = s.pending)
    (h8 : s'.draining ++ walk s'.kop = s.draining ++ walk s.kop) (h9 : s'.bindings = s.bindings) : Chained d s' := by
  refine ⟨?_, ?_, ?_, ?_, ?_, ?_, ?_, ?_, ?_, ?_, ?_, ?_⟩
  · rw [h6]
    exact h.freeNodup
  · rw [h7]
    exact h.pendingNodup
  · rw [h8]
    exact h.drainingNodup
  · rw [h6, h3]
    exact h.free
  · rw [h7, h3]
    exact h.pending
  · rw [h8, h3]
    exact h.draining
  · rw [h3]
    exact h.range
  · rw [h3, h5, h1]
    exact h.named
  · rw [h1, h3, h5]
    exact h.word
  · rw [h3, h2, h9, h5, h4]
    exact h.event
  · rw [h9, h3, h2, h5]
    exact h.bound
  · rw [h3, h4, h2]
    exact h.owes

theorem Chained.retire (h : Chained d s) (hw : s.word line = .live r) (hk : walk s'.kop = walk s.kop) (h1 : s'.pub = s.pub)
    (h2 : s'.pubLine = s.pubLine) (h3 : s'.free = s.free) (h4 : s'.draining = s.draining)
    (hst : s'.pubState = update s.pubState r .pending) (hp : s'.pending = r :: s.pending)
    (hword : s'.word = update s.word line (.retiring r))
    (hbind : ∀ q, q ≠ r → s'.pubBinding q = s.pubBinding q) (howe : ∀ i, s'.pubBinding r = some i ↔ s.pub r = .event i)
    (hdown : ∀ j e, s'.bindings j = some e → ∃ b, s.bindings j = some b ∧ e.line = b.line ∧
      (0 < e.refs → 0 < b.refs ∧ s.pub r ≠ .event j))
    (hup : ∀ j b, s.bindings j = some b → ∃ e, s'.bindings j = some e ∧ e.line = b.line ∧
      (s.pub r ≠ .event j → e.refs = b.refs)) : Chained d s' := by
  obtain ⟨hlive, hline⟩ := h.live hw
  have hself : s'.pubState r = .pending := by rw [hst, update_self]
  have hother : ∀ q, q ≠ r → s'.pubState q = s.pubState q := fun q hq => by rw [hst, update_of_ne hq]
  have hlines : ∀ q l, q ≠ r → s.pubState q ≠ .free → s.pubLine q = some l → l ≠ line := by
    rintro q l hq hqs hql rfl
    exact hq (h.line_inj hqs (by rw [hlive]; decide) hql hline)
  have hne : s.pubState r ≠ .free := by rw [hlive]; decide
  refine ⟨?_, ?_, ?_, ?_, ?_, ?_, ?_, ?_, ?_, ?_, ?_, ?_⟩
  · rw [h3]
    exact h.freeNodup
  · rw [hp, List.nodup_cons]
    refine ⟨fun hr => ?_, h.pendingNodup⟩
    rw [h.pending, hlive] at hr
    cases hr
  · rw [h4, hk]
    exact h.drainingNodup
  · intro q
    rw [h3, h.free q]
    by_cases hq : q = r
    · rw [hq, hself, hlive]
      simp
    · rw [hother q hq]
  · intro q
    rw [hp, List.mem_cons, h.pending q]
    by_cases hq : q = r
    · rw [hq, hself]
      simp
    · rw [hother q hq]
      exact ⟨fun ho => ho.resolve_left hq, .inr⟩
  · intro q
    rw [h4, hk, h.draining q]
    by_cases hq : q = r
    · rw [hq, hself, hlive]
      simp
    · rw [hother q hq]
  · intro q hqs
    by_cases hq : q = r
    · rw [hq]
      exact h.range r hne
    · rw [hother q hq] at hqs
      exact h.range q hqs
  · intro q hqs
    rw [h2]
    by_cases hq : q = r
    · subst hq
      refine ⟨line, hline, ?_⟩
      rw [hword, update_self, hself]
      rfl
    · rw [hother q hq] at hqs ⊢
      obtain ⟨l, hl, hlw⟩ := h.named q hqs
      refine ⟨l, hl, ?_⟩
      rw [hword, update_of_ne (hlines q l hq hqs hl)]
      exact hlw
  · intro l q hlw
    rw [h2]
    rw [hword, update_apply] at hlw
    split_ifs at hlw with hll
    · rcases hlw with hlw | hlw
      · cases hlw
      · cases hlw
        rw [hself, hll]
        exact ⟨by decide, hline⟩
    · obtain ⟨hqs, hql⟩ := h.word l q hlw
      have hq : q ≠ r := by
        rintro rfl
        rw [hline] at hql
        exact hll (Option.some.inj hql).symm
      rw [hother q hq]
      exact ⟨hqs, hql⟩
  · intro q j hqs hqe
    rw [h1] at hqe
    rw [h2]
    by_cases hq : q = r
    · subst hq
      obtain ⟨b, hb, hbl, -⟩ := h.event q j hne hqe
      obtain ⟨e, he, hel, -⟩ := hup j b hb
      refine ⟨e, he, hel ▸ hbl, fun hk => ?_, fun _ => (howe j).2 hqe⟩
      rw [hself] at hk
      cases hk
    · rw [hother q hq] at hqs ⊢
      rw [hbind q hq]
      obtain ⟨b, hb, hbl, b1, b2⟩ := h.event q j hqs hqe
      obtain ⟨e, he, hel, her⟩ := hup j b hb
      have hrj : s.pub r ≠ .event j := fun hk => hq (h.event_inj hqs hne hqe hk)
      refine ⟨e, he, hel ▸ hbl, ?_, b2⟩
      rw [her hrj]
      exact b1
  · intro j e he
    obtain ⟨b, hb, hel, her⟩ := hdown j e he
    obtain ⟨q, q1, q2, q3, q4⟩ := h.bound j b hb
    rw [h1, h2, hel]
    by_cases hq : q = r
    · subst hq
      refine ⟨q, by rw [hself]; decide, q2, q3, fun hpos => ?_⟩
      exact absurd q2 (her hpos).2
    · refine ⟨q, by rw [hother q hq]; exact q1, q2, q3, fun hpos => ?_⟩
      rw [hother q hq]
      exact q4 (her hpos).1
  · intro q j hqs hqb
    rw [h1]
    by_cases hq : q = r
    · subst hq
      exact (howe j).1 hqb
    · rw [hother q hq] at hqs
      rw [hbind q hq] at hqb
      exact h.owes q j hqs hqb

theorem Chained.close (h : Chained d s) (hd : s.draining ++ walk s.kop = []) {n : Nat} {t : Then} {e : Nat → Nat} {o : Bool} :
    Chained d { s with
      draining := s.pending
      pending := []
      pubState := fun r => if r ∈ s.pending then .draining else s.pubState r
      drainEpoch := e
      drainOpen := o
      kop := .sampling k n t } := by
  have hat : ∀ q, (if q ∈ s.pending then PubState.draining else s.pubState q) = .free ↔ s.pubState q = .free := by
    intro q
    split_ifs with hq
    · rw [h.pending] at hq
      rw [hq]
      simp
    · rfl
  have hlive : ∀ q, (if q ∈ s.pending then PubState.draining else s.pubState q) = .live ↔ s.pubState q = .live := by
    intro q
    split_ifs with hq
    · rw [h.pending] at hq
      rw [hq]
      simp
    · rfl
  have hnone : ∀ q, s.pubState q ≠ .draining := by
    intro q hq
    have hm := (h.draining q).2 hq
    rw [hd] at hm
    cases hm
  have hword : ∀ q, s.pubState q ≠ .free →
      wordOf q (if q ∈ s.pending then PubState.draining else s.pubState q) = wordOf q (s.pubState q) := by
    intro q _
    split_ifs with hq
    · rw [h.pending] at hq
      rw [hq]
      rfl
    · rfl
  refine ⟨h.freeNodup, List.nodup_nil, ?_, ?_, ?_, ?_, ?_, ?_, ?_, ?_, ?_, ?_⟩
  · show (s.pending ++ []).Nodup
    rw [List.append_nil]
    exact h.pendingNodup
  · intro q
    rw [h.free q, hat q]
  · intro q
    refine ⟨(fun hq => by cases hq), fun hq => ?_⟩
    have hq' : (if q ∈ s.pending then PubState.draining else s.pubState q) = .pending := hq
    split_ifs at hq' with hp
    exact absurd ((h.pending q).2 hq') hp
  · intro q
    show q ∈ s.pending ++ [] ↔ (if q ∈ s.pending then PubState.draining else s.pubState q) = .draining
    rw [List.append_nil]
    constructor
    · intro hq
      rw [if_pos hq]
    · intro hq
      split_ifs at hq with hp
      · exact hp
      · exact absurd hq (hnone q)
  · intro q hq
    exact h.range q fun hk => hq ((hat q).2 hk)
  · intro q hq
    have hq' : s.pubState q ≠ .free := fun hk => hq ((hat q).2 hk)
    obtain ⟨l, hl, hlw⟩ := h.named q hq'
    exact ⟨l, hl, hlw.trans (hword q hq').symm⟩
  · intro l q hlw
    obtain ⟨h1, h2⟩ := h.word l q hlw
    exact ⟨fun hk => h1 ((hat q).1 hk), h2⟩
  · intro q j hq hqe
    obtain ⟨b, b1, b2, b3, b4⟩ := h.event q j (fun hk => hq ((hat q).2 hk)) hqe
    exact ⟨b, b1, b2, fun hk => b3 ((hlive q).1 hk), fun hk => b4 fun hk' => hk ((hlive q).2 hk')⟩
  · intro j b hb
    obtain ⟨q, q1, q2, q3, q4⟩ := h.bound j b hb
    exact ⟨q, fun hk => q1 ((hat q).1 hk), q2, q3, fun hpos => (hlive q).2 (q4 hpos)⟩
  · intro q j hq hqb
    exact h.owes q j (fun hk => hq ((hat q).2 hk)) hqb

theorem Chained.pubReclaim_eq (h : Chained d s) (hr : s.pubState r = .draining) : ∃ line, s.pubLine r = some line ∧
    s.word line = .retiring r ∧ s.pubReclaim r =
      { s with
        word := update s.word line .none
        pubLine := update s.pubLine r none
        bindings := (s.pubReclaim r).bindings
        pubBinding := update s.pubBinding r none
        pub := update s.pub r .null
        pubState := update s.pubState r .free
        free := r :: s.free } := by
  obtain ⟨line, hl, hw⟩ := h.named r (by rw [hr]; decide)
  rw [hr] at hw
  refine ⟨line, hl, hw, ?_⟩
  unfold pubReclaim
  rw [hl]

theorem Chained.pubReclaim_bindings (h : Chained d s) (hr : s.pubState r = .draining) :
    (∀ j, s.pub r ≠ .event j → (s.pubReclaim r).bindings j = s.bindings j) ∧
      ∀ j, s.pub r = .event j → (s.pubReclaim r).bindings j = none := by
  have hne : s.pubState r ≠ .free := by rw [hr]; decide
  unfold pubReclaim
  dsimp only
  cases hb : s.pubBinding r with
  | none =>
    refine ⟨fun _ _ => rfl, fun j hj => ?_⟩
    obtain ⟨b, -, -, -, hk⟩ := h.event r j hne hj
    have := hk (by rw [hr]; decide)
    rw [hb] at this
    cases this
  | some i =>
    have hi := h.owes r i hne hb
    refine ⟨fun j hj => ?_, fun j hj => ?_⟩
    · refine update_of_ne ?_ _ _
      rintro rfl
      exact hj hi
    · rw [hi] at hj
      cases hj
      exact update_self _ _ _

theorem Chained.reclaim (h : Chained d s) {rest : List Nat} {n : Nat} {t : Then} (hk : s.kop = .reclaiming (r :: rest) n t)
    (hd : s.draining = []) : Chained d { s.pubReclaim r with kop := .reclaiming rest n t } := by
  have hchain := h.drainingNodup
  have hmem := h.draining
  rw [hd, hk] at hchain hmem
  have hr : s.pubState r = .draining := (hmem r).1 (List.mem_cons_self)
  have hne : s.pubState r ≠ .free := by rw [hr]; decide
  obtain ⟨hrest, hnodup⟩ := List.nodup_cons.1 hchain
  obtain ⟨line, hl, hw, heq⟩ := h.pubReclaim_eq hr
  obtain ⟨hb1, hb2⟩ := h.pubReclaim_bindings hr
  generalize (s.pubReclaim r).bindings = f at heq hb1 hb2
  rw [heq]
  have hother : ∀ q, update s.pubState r .free q ≠ .free → q ≠ r ∧ s.pubState q ≠ .free := by
    intro q hq
    rw [update_apply] at hq
    split_ifs at hq with hqr
    · exact absurd rfl hq
    · exact ⟨hqr, hq⟩
  have hlines : ∀ q l, q ≠ r → s.pubState q ≠ .free → s.pubLine q = some l → l ≠ line := by
    rintro q l hq hqs hql rfl
    exact hq (h.line_inj hqs hne hql hl)
  refine ⟨?_, h.pendingNodup, ?_, ?_, ?_, ?_, ?_, ?_, ?_, ?_, ?_, ?_⟩
  · refine List.nodup_cons.2 ⟨fun hf => ?_, h.freeNodup⟩
    exact hne ((h.free r).1 hf).2.2
  · show (s.draining ++ rest).Nodup
    rw [hd]
    exact hnodup
  · intro q
    show q ∈ r :: s.free ↔ 0 < q ∧ q < d.slots ∧ update s.pubState r .free q = .free
    rw [List.mem_cons, h.free q, update_apply]
    by_cases hq : q = r
    · obtain ⟨g1, g2⟩ := h.range r hne
      rw [hq]
      simp [g1, g2]
    · rw [if_neg hq]
      exact ⟨fun ho => ho.resolve_left hq, .inr⟩
  · intro q
    show q ∈ s.pending ↔ update s.pubState r .free q = .pending
    rw [h.pending q, update_apply]
    split_ifs with hq
    · rw [hq, hr]
      simp
    · rfl
  · intro q
    show q ∈ s.draining ++ rest ↔ update s.pubState r .free q = .draining
    have hq' : q ∈ r :: rest ↔ s.pubState q = .draining := hmem q
    rw [hd, List.nil_append, update_apply]
    by_cases hq : q = r
    · rw [hq, if_pos rfl]
      exact ⟨fun hk => absurd hk hrest, (fun hk => by cases hk)⟩
    · rw [if_neg hq, ← hq', List.mem_cons]
      exact ⟨.inr, fun ho => ho.resolve_left hq⟩
  · intro q hq
    exact h.range q (hother q hq).2
  · intro q hq
    obtain ⟨hqr, hqs⟩ := hother q hq
    obtain ⟨l, h1, h2⟩ := h.named q hqs
    refine ⟨l, (update_of_ne hqr _ _).trans h1, ?_⟩
    show update s.word line .none l = wordOf q (update s.pubState r .free q)
    rw [update_of_ne (hlines q l hqr hqs h1), update_of_ne hqr]
    exact h2
  · intro l q hlw
    have hlw' : update s.word line .none l = .live q ∨ update s.word line .none l = .retiring q := hlw
    rw [update_apply] at hlw'
    split_ifs at hlw' with hll
    · rcases hlw' with hk | hk <;> cases hk
    · obtain ⟨h1, h2⟩ := h.word l q hlw'
      have hq : q ≠ r := by
        rintro rfl
        rw [hl] at h2
        exact hll (Option.some.inj h2).symm
      refine ⟨?_, (update_of_ne hq _ _).trans h2⟩
      show update s.pubState r .free q ≠ .free
      rw [update_of_ne hq]
      exact h1
  · intro q j hq hqe
    obtain ⟨hqr, hqs⟩ := hother q hq
    have hqe' : s.pub q = .event j := (update_of_ne hqr _ _).symm.trans hqe
    obtain ⟨b, b1, b2, b3, b4⟩ := h.event q j hqs hqe'
    have hrj : s.pub r ≠ .event j := fun hk => hqr (h.event_inj hqs hne hqe' hk)
    refine ⟨b, (hb1 j hrj).trans b1, (update_of_ne hqr _ _).trans b2, fun hk => ?_, fun hk => ?_⟩
    · exact b3 ((update_of_ne hqr _ _).symm.trans hk)
    · refine (update_of_ne hqr _ _).trans (b4 fun hk' => hk ?_)
      exact (update_of_ne hqr _ _).trans hk'
  · intro j b hb
    have hrj : s.pub r ≠ .event j := by
      intro hk
      have hnone := hb2 j hk
      rw [show f j = some b from hb] at hnone
      cases hnone
    obtain ⟨q, q1, q2, q3, q4⟩ := h.bound j b ((hb1 j hrj).symm.trans hb)
    have hqr : q ≠ r := by
      rintro rfl
      exact hrj q2
    have hst : update s.pubState r .free q = s.pubState q := update_of_ne hqr _ _
    refine ⟨q, ?_, (update_of_ne hqr _ _).trans q2, (update_of_ne hqr _ _).trans q3, fun hpos => ?_⟩
    · show update s.pubState r .free q ≠ .free
      rw [hst]
      exact q1
    · exact hst.trans (q4 hpos)
  · intro q j hq hqb
    obtain ⟨hqr, hqs⟩ := hother q hq
    exact (update_of_ne hqr _ _).trans (h.owes q j hqs ((update_of_ne hqr _ _).symm.trans hqb))

theorem Chained.rebind (h : Chained d s) {b e : Binding} (hb : s.bindings i = some b) (hl : e.line = b.line)
    (hr : 0 < b.refs) (hr' : 0 < e.refs) : Chained d { s with bindings := update s.bindings i (some e) } := by
  refine ⟨h.freeNodup, h.pendingNodup, h.drainingNodup, h.free, h.pending, h.draining, h.range, h.named, h.word, ?_, ?_,
    h.owes⟩
  · intro q j hq hqe
    obtain ⟨c, c1, c2, c3, c4⟩ := h.event q j hq hqe
    show ∃ c, update s.bindings i (some e) j = some c ∧ _
    by_cases hji : j = i
    · subst hji
      rw [hb] at c1
      cases c1
      exact ⟨e, update_self _ _ _, by rw [hl]; exact c2, fun _ => hr', c4⟩
    · exact ⟨c, (update_of_ne hji _ _).trans c1, c2, c3, c4⟩
  · intro j c hc
    have hc' : update s.bindings i (some e) j = some c := hc
    rw [update_apply] at hc'
    split_ifs at hc' with hji
    · subst hji
      cases hc'
      obtain ⟨q, q1, q2, q3, q4⟩ := h.bound j b hb
      exact ⟨q, q1, q2, by rw [hl]; exact q3, fun _ => q4 hr⟩
    · exact h.bound j c hc'

/-! ### A commit -/

/-- The bindings behind a commit: an event dispatch gets one of its own, and any other needs none. -/
def Seats (s : State) (line : Nat) (e : Dispatch) (f : Nat → Option Binding) : Prop :=
  (∀ i, e ≠ .event i) ∧ f = s.bindings ∨
    ∃ i, e = .event i ∧ s.bindings i = none ∧ f = update s.bindings i (some { line := line })

section Commit

variable {e : Dispatch} {f : Nat → Option Binding} {q l j : Nat} {b : Binding}

theorem Seats.old (he : Seats s line e f) (hb : s.bindings j = some b) : f j = some b := by
  rcases he with ⟨-, rfl⟩ | ⟨i, rfl, hi, rfl⟩
  · exact hb
  · have hji : j ≠ i := by
      rintro rfl
      rw [hi] at hb
      cases hb
    exact (update_of_ne hji _ _).trans hb

theorem Seats.new (he : Seats s line e f) (hb : f j = some b) : s.bindings j = some b ∨ e = .event j ∧ b = { line := line } := by
  rcases he with ⟨-, rfl⟩ | ⟨i, rfl, -, rfl⟩
  · exact .inl hb
  · rw [update_apply] at hb
    split_ifs at hb with hji
    · exact .inr ⟨by rw [hji], (Option.some.inj hb).symm⟩
    · exact .inl hb

/-- The binding of the new record is the one the commit seats. -/
theorem Seats.own (he : Seats s line e f) (hj : e = .event j) : f j = some { line := line } := by
  rcases he with ⟨hne, -⟩ | ⟨i, rfl, -, rfl⟩
  · exact absurd hj (hne j)
  · cases hj
    exact update_self _ _ _

theorem Chained.line_ne (h : Chained d s) (hw : s.word line = .none) (hq : s.pubState q ≠ .free) (hl : s.pubLine q = some l) :
    l ≠ line := by
  rintro rfl
  have hk := h.word_state hq hl
  rw [hw] at hk
  cases hsq : s.pubState q <;> rw [hsq] at hk <;> cases hk

theorem Chained.commit_named (h : Chained d s) (hw : s.word line = .none) (hq : update s.pubState r .live q ≠ .free) :
    ∃ l, update s.pubLine r (some line) q = some l ∧
      update s.word line (.live r) l = wordOf q (update s.pubState r .live q) := by
  by_cases hqr : q = r
  · subst hqr
    exact ⟨line, update_self _ _ _, by rw [update_self, update_self]; rfl⟩
  · rw [update_of_ne hqr] at hq
    obtain ⟨l, h1, h2⟩ := h.named q hq
    simp only [update_of_ne hqr]
    exact ⟨l, h1, (update_of_ne (h.line_ne hw hq h1) _ _).trans h2⟩

theorem Chained.commit_word (h : Chained d s) (hfree : s.pubState r = .free)
    (hlw : update s.word line (.live r) l = .live q ∨ update s.word line (.live r) l = .retiring q) :
    update s.pubState r .live q ≠ .free ∧ update s.pubLine r (some line) q = some l := by
  rw [update_apply] at hlw
  split_ifs at hlw with hll
  · rcases hlw with hk | hk
    · cases hk
      rw [update_self, hll]
      exact ⟨by decide, update_self _ _ _⟩
    · cases hk
  · obtain ⟨h1, h2⟩ := h.word l q hlw
    have hqr : q ≠ r := fun hqr => h1 (hqr ▸ hfree)
    rw [update_of_ne hqr]
    exact ⟨h1, (update_of_ne hqr _ _).trans h2⟩

theorem Chained.commit_event (h : Chained d s) (he : Seats s line e f) (hq : update s.pubState r .live q ≠ .free)
    (hqe : update s.pub r e q = .event j) :
    ∃ b, f j = some b ∧ update s.pubLine r (some line) q = some b.line ∧
      (update s.pubState r .live q = .live → 0 < b.refs) ∧
      (update s.pubState r .live q ≠ .live → update s.pubBinding r none q = some j) := by
  by_cases hqr : q = r
  · subst hqr
    rw [update_self] at hqe
    simp only [update_self]
    exact ⟨{ line := line }, he.own hqe, rfl, fun _ => Nat.one_pos, fun hk => absurd rfl hk⟩
  · rw [update_of_ne hqr] at hq hqe
    obtain ⟨b, b1, b2, b3, b4⟩ := h.event q j hq hqe
    simp only [update_of_ne hqr]
    exact ⟨b, he.old b1, b2, b3, b4⟩

theorem Chained.commit_bound (h : Chained d s) (hfree : s.pubState r = .free) (he : Seats s line e f) (hb : f j = some b) :
    ∃ q, update s.pubState r .live q ≠ .free ∧ update s.pub r e q = .event j ∧
      update s.pubLine r (some line) q = some b.line ∧ (0 < b.refs → update s.pubState r .live q = .live) := by
  rcases he.new hb with hb | ⟨hej, rfl⟩
  · obtain ⟨q, q1, q2, q3, q4⟩ := h.bound j b hb
    have hqr : q ≠ r := fun hqr => q1 (hqr ▸ hfree)
    refine ⟨q, ?_⟩
    simp only [update_of_ne hqr]
    exact ⟨q1, q2, q3, q4⟩
  · exact ⟨r, by simp, by rw [update_self, hej], update_self _ _ _, fun _ => update_self _ _ _⟩

/-- A chain the new record was not on keeps its records. -/
theorem commit_chain {P : PubState} (hfree : s.pubState r = .free) (hP : P ≠ .free) (hl : P ≠ .live) :
    s.pubState q = P ↔ update s.pubState r .live q = P := by
  by_cases hq : q = r
  · rw [hq, update_self, hfree]
    exact ⟨fun hk => absurd hk.symm hP, fun hk => absurd hk.symm hl⟩
  · rw [update_of_ne hq]

theorem Chained.commit (h : Chained d s) {rest : List Nat} {p : Kop} (hf : s.free = r :: rest) (hw : s.word line = .none)
    (hp : walk p = walk s.kop) (he : Seats s line e f) :
    Chained d { s.commit r rest line e with bindings := f, kop := p } := by
  have hnodup := h.freeNodup
  rw [hf, List.nodup_cons] at hnodup
  obtain ⟨g1, g2, hfree⟩ := (h.free r).1 (by rw [hf]; exact List.mem_cons_self)
  refine ⟨hnodup.2, h.pendingNodup, hp ▸ h.drainingNodup, fun q => ?_,
    fun q => (h.pending q).trans (commit_chain hfree (by decide) (by decide)),
    fun q => hp ▸ (h.draining q).trans (commit_chain hfree (by decide) (by decide)), fun q hq => ?_,
    fun q => h.commit_named hw, fun l q => h.commit_word hfree, fun q j => h.commit_event he,
    fun j b => h.commit_bound hfree he, fun q j hq hqb => ?_⟩
  · show q ∈ rest ↔ 0 < q ∧ q < d.slots ∧ update s.pubState r .live q = .free
    by_cases hq : q = r
    · rw [hq, update_self]
      exact ⟨fun hk => absurd hk hnodup.1, fun hk => by cases hk.2.2⟩
    · rw [update_of_ne hq, ← h.free q, hf, List.mem_cons]
      exact ⟨.inr, fun ho => ho.resolve_left hq⟩
  · have hq' : update s.pubState r .live q ≠ .free := hq
    by_cases hqr : q = r
    · rw [hqr]
      exact ⟨g1, g2⟩
    · rw [update_of_ne hqr] at hq'
      exact h.range q hq'
  · have hqb' : update s.pubBinding r none q = some j := hqb
    have hq' : update s.pubState r .live q ≠ .free := hq
    rw [update_apply] at hqb'
    split_ifs at hqb' with hqr
    rw [update_of_ne hqr] at hq'
    exact (update_of_ne hqr _ _).trans (h.owes q j hq' hqb')

end Commit

def holds : Frame → Option Nat
  | .raised _ => none
  | .loaded r => r
  | .running r _ => r

/-- The batch's sample of a core's epoch is taken. -/
def sampled (s : State) (k : Nat) : Bool :=
  s.drainOpen ||
    match s.kop with
    | .sampling j _ _ => decide (k < j)
    | _ => false

/-- The holder of the lock has found the core out of the batch's reach. -/
def cleared (s : State) (k : Nat) : Bool :=
  match s.kop with
  | .checking j _ _ => decide (k < j)
  | .reclaiming _ _ _ => true
  | _ => false

/-- What the holder's place says of the batch. -/
def phase (s : State) : Prop :=
  match s.kop with
  | .idle => s.drainOpen = false → s.draining = []
  | .pass _ _ => s.drainOpen = false → s.draining = []
  | .sampling _ _ _ => s.drainOpen = false
  | .checking _ _ _ => s.drainOpen = true
  | .reclaiming _ _ _ => s.draining = []

/-- An entry inside a core keeps its epoch odd and as it was sampled, and no record it holds is free. -/
structure Guarded (d : Build) (s : State) : Prop where
  parity : ∀ k, s.epoch k % 2 = if s.frames k = [] then 0 else 1
  cores : ∀ k, s.frames k ≠ [] → k < d.cores
  held : ∀ k f r, f ∈ s.frames k → holds f = some r → s.pubState r ≠ .free
  read : ∀ k r e, Frame.running (some r) e ∈ s.frames k → s.pub r = e
  sample : ∀ k f r, f ∈ s.frames k → holds f = some r → s.pubState r = .draining → s.sampled k = true →
    s.drainEpoch k = s.epoch k
  clear : ∀ k f r, f ∈ s.frames k → holds f = some r → s.pubState r = .draining → s.cleared k = false
  phase : s.phase

theorem Guarded.locked (h : Guarded d s) (h1 : s'.epoch = s.epoch) (h2 : s'.frames = s.frames) (h3 : s'.drainEpoch = s.drainEpoch)
    (hfree : ∀ k f r, f ∈ s.frames k → holds f = some r → s'.pubState r ≠ .free)
    (hpub : ∀ k f r, f ∈ s.frames k → holds f = some r → s'.pub r = s.pub r)
    (hdrain : ∀ k f r, f ∈ s.frames k → holds f = some r → s'.pubState r = .draining →
      (s'.sampled k = true → s.pubState r = .draining ∧ s.sampled k = true) ∧ s'.cleared k = false)
    (hphase : s'.phase) : Guarded d s' := by
  refine ⟨?_, ?_, ?_, ?_, ?_, ?_, hphase⟩
  · rw [h1, h2]
    exact h.parity
  · rw [h2]
    exact h.cores
  · rw [h2]
    exact hfree
  · rw [h2]
    intro k r e he
    rw [hpub k _ r he rfl]
    exact h.read k r e he
  · rw [h2, h3, h1]
    intro k f r hf hr hs hk
    obtain ⟨g1, g2⟩ := (hdrain k f r hf hr hs).1 hk
    exact h.sample k f r hf hr g1 g2
  · rw [h2]
    intro k f r hf hr hs
    exact (hdrain k f r hf hr hs).2

theorem Guarded.framed (h : Guarded d s) {l : List Frame} {e : Nat} (hk : k < d.cores)
    (hpar : e % 2 = if l = [] then 0 else 1) (hkeep : l ≠ [] → s.frames k ≠ [] → e = s.epoch k)
    (hnew : ∀ f ∈ l, ∀ r, holds f = some r → s.pubState r = .live ∨ ∃ g ∈ s.frames k, holds g = some r)
    (hread : ∀ r a, Frame.running (some r) a ∈ l → s.pub r = a) :
    Guarded d { s with epoch := update s.epoch k e, frames := update s.frames k l } := by
  have hat : ∀ j f, f ∈ update s.frames k l j → (j = k ∧ f ∈ l) ∨ (j ≠ k ∧ f ∈ s.frames j) := by
    intro j f hf
    rw [update_apply] at hf
    split_ifs at hf with hjk
    · exact .inl ⟨hjk, hf⟩
    · exact .inr ⟨hjk, hf⟩
  -- a record that a batch covers was held before on the same core
  have hdrain : ∀ f ∈ l, ∀ r, holds f = some r → s.pubState r = .draining → ∃ g ∈ s.frames k, holds g = some r := by
    intro f hf r hr hs
    rcases hnew f hf r hr with hlive | hg
    · rw [hlive] at hs
      cases hs
    · exact hg
  refine ⟨?_, ?_, ?_, ?_, ?_, ?_, h.phase⟩
  · intro j
    show update s.epoch k e j % 2 = if update s.frames k l j = [] then 0 else 1
    rw [update_apply, update_apply]
    split_ifs with hjk hl hl
    · rw [hpar, if_pos hl]
    · rw [hpar, if_neg hl]
    · rw [h.parity, if_pos hl]
    · rw [h.parity, if_neg hl]
  · intro j hj
    by_cases hjk : j = k
    · rw [hjk]
      exact hk
    · exact h.cores j fun hn => hj ((update_of_ne hjk _ _).trans hn)
  · intro j f r hf hr
    rcases hat j f hf with ⟨-, hf⟩ | ⟨-, hf⟩
    · rcases hnew f hf r hr with hlive | ⟨g, hg, hgr⟩
      · show s.pubState r ≠ .free
        rw [hlive]
        decide
      · exact h.held k g r hg hgr
    · exact h.held j f r hf hr
  · intro j r a ha
    rcases hat j _ ha with ⟨-, ha⟩ | ⟨-, ha⟩
    · exact hread r a ha
    · exact h.read j r a ha
  · intro j f r hf hr hs hsam
    show s.drainEpoch j = update s.epoch k e j
    rcases hat j f hf with ⟨rfl, hf'⟩ | ⟨hjk, hf'⟩
    · obtain ⟨g, hg, hgr⟩ := hdrain f hf' r hr hs
      rw [update_self, hkeep (List.ne_nil_of_mem hf') (List.ne_nil_of_mem hg)]
      exact h.sample j g r hg hgr hs hsam
    · rw [update_of_ne hjk]
      exact h.sample j f r hf' hr hs hsam
  · intro j f r hf hr hs
    rcases hat j f hf with ⟨rfl, hf'⟩ | ⟨-, hf'⟩
    · obtain ⟨g, hg, hgr⟩ := hdrain f hf' r hr hs
      exact h.clear j g r hg hgr hs
    · exact h.clear j f r hf' hr hs

theorem turn_parity (h : Guarded d s) {l : List Frame} (hl : s.frames k = [] ∨ l = []) (hne : ¬(s.frames k = [] ∧ l = [])) :
    ((s.epoch k + 1) % 2 ^ 32) % 2 = if l = [] then 0 else 1 := by
  have hp := h.parity k
  split_ifs with hn
  · rw [if_neg fun hk => hne ⟨hk, hn⟩] at hp
    omega
  · rw [if_pos (hl.resolve_right hn)] at hp
    omega

theorem Guarded.enter (h : Guarded d s) (hk : k < d.cores) (line : Nat) : Guarded d (s.enter k line) := by
  rw [State.enter, turn]
  refine h.framed hk ?_ ?_ ?_ ?_
  · by_cases hl : s.frames k = []
    · rw [if_pos (.inl hl)]
      exact turn_parity h (.inl hl) fun hk => List.cons_ne_nil _ _ hk.2
    · rw [if_neg (not_or.2 ⟨hl, List.cons_ne_nil _ _⟩), h.parity, if_neg hl, if_neg (List.cons_ne_nil _ _)]
  · intro _ hf
    rw [if_neg (not_or.2 ⟨hf, List.cons_ne_nil _ _⟩)]
  · intro f hf r hr
    rcases List.mem_cons.1 hf with rfl | hf
    · cases hr
    · exact .inr ⟨f, hf, hr⟩
  · intro r a ha
    rcases List.mem_cons.1 ha with hk | ha
    · cases hk
    · exact h.read k r a ha

theorem Guarded.advance (h : Guarded d s) {f g : Frame} {l : List Frame} (hf : s.frames k = f :: l)
    (hnew : ∀ r, holds g = some r → s.pubState r = .live ∨ holds f = some r)
    (hread : ∀ r a, g = .running (some r) a → s.pub r = a) :
    Guarded d { s with frames := update s.frames k (g :: l) } := by
  have hne : s.frames k ≠ [] := by
    rw [hf]
    exact List.cons_ne_nil _ _
  have hmoved := h.framed (e := s.epoch k) (l := g :: l) (h.cores k hne) ?_ (fun _ _ => rfl) ?_ ?_
  · rw [update_eq_self] at hmoved
    exact hmoved
  · rw [h.parity, if_neg hne, if_neg (List.cons_ne_nil _ _)]
  · intro e he r hr
    rcases List.mem_cons.1 he with rfl | he
    · refine (hnew r hr).imp id fun hk => ⟨f, ?_, hk⟩
      rw [hf]
      exact List.mem_cons_self
    · refine .inr ⟨e, ?_, hr⟩
      rw [hf]
      exact List.mem_cons_of_mem _ he
  · intro r a ha
    rcases List.mem_cons.1 ha with hk | ha
    · exact hread r a hk.symm
    · refine h.read k r a ?_
      rw [hf]
      exact List.mem_cons_of_mem _ ha

theorem Guarded.load (h : Guarded d s) (hc : Chained d s) (k : Nat) : Guarded d (s.load d k) := by
  unfold State.load
  cases hf : s.frames k with
  | nil => exact h
  | cons f l =>
    cases f with
    | raised line =>
      refine h.advance hf (fun r hr => .inl ?_) fun r a hk => by cases hk
      have hr' : wordSlot d (s.word line) = some r := hr
      cases hw : s.word line with
      | none =>
        rw [hw] at hr'
        cases hr'
      | retiring q =>
        rw [hw] at hr'
        cases hr'
      | live q =>
        rw [hw, wordSlot] at hr'
        split_ifs at hr'
        cases hr'
        exact (hc.live hw).1
    | _ => exact h

theorem Guarded.readRecord (h : Guarded d s) (k : Nat) : Guarded d (s.read k) := by
  unfold State.read
  cases hf : s.frames k with
  | nil => exact h
  | cons f l =>
    cases f with
    | loaded q =>
      cases q with
      | none => exact h.advance hf (fun r hr => by cases hr) fun r a hk => by cases hk
      | some q =>
        refine h.advance hf (fun r hr => .inr hr) fun r a hk => ?_
        cases hk
        rfl
    | _ => exact h

theorem Guarded.leave (h : Guarded d s) (k : Nat) : Guarded d (s.leave k) := by
  unfold State.leave
  cases hf : s.frames k with
  | nil => exact h
  | cons f l =>
    cases f with
    | running q a =>
      have hne : s.frames k ≠ [] := by
        rw [hf]
        exact List.cons_ne_nil _ _
      show Guarded d (s.turn k l)
      rw [turn]
      refine h.framed (h.cores k hne) ?_ ?_ ?_ ?_
      · split_ifs with hl hn hn
        · have hp := turn_parity h hl fun hk => hne hk.1
          rw [if_pos hn] at hp
          exact hp
        · exact absurd (hl.resolve_left hne) hn
        · exact absurd (.inr hn) hl
        · rw [h.parity, if_neg hne]
      · intro hl _
        rw [if_neg (not_or.2 ⟨hne, hl⟩)]
      · intro e he r hr
        refine .inr ⟨e, ?_, hr⟩
        rw [hf]
        exact List.mem_cons_of_mem _ he
      · intro r b hb
        refine h.read k r b ?_
        rw [hf]
        exact List.mem_cons_of_mem _ hb
    | _ => exact h

theorem finish_cases (s : State) (t : Then) : s.finish t = { s with kop := .idle } ∨
    ∃ r rest line e f, s.free = r :: rest ∧ s.word line = .none ∧
      ((∀ i, e ≠ .event i) ∧ f = s.bindings ∨
        ∃ i, e = .event i ∧ s.bindings i = none ∧ f = update s.bindings i (some { line := line })) ∧
      s.finish t = { s.commit r rest line e with bindings := f, kop := .idle } := by
  cases t with
  | done => exact .inl rfl
  | attach line =>
    unfold finish
    dsimp only
    split
    · rename_i r rest hw hf
      exact .inr ⟨r, rest, line, .kernel, s.bindings, hf, hw, .inl ⟨(fun i hk => by cases hk), rfl⟩, rfl⟩
    · exact .inl rfl
  | claim line i =>
    unfold finish
    dsimp only
    split
    · rename_i r rest hw hf hb
      exact .inr ⟨r, rest, line, .event i, _, hf, hw, .inr ⟨i, rfl, hb, rfl⟩, rfl⟩
    · exact .inl rfl

theorem Guarded.finish (h : Guarded d s) (hc : Chained d s) (hp : s.drainOpen = false → s.draining = []) (t : Then) :
    Guarded d (s.finish t) := by
  rcases finish_cases s t with heq | ⟨r, rest, line, e, f, hf, -, -, heq⟩
  · rw [heq]
    refine h.locked rfl rfl rfl (fun k g q hg hq => h.held k g q hg hq) (fun _ _ _ _ _ => rfl) ?_ hp
    intro k g q _ _ hs
    refine ⟨fun hk => ⟨hs, ?_⟩, rfl⟩
    have hk' : (s.drainOpen || false) = true := hk
    rw [Bool.or_false] at hk'
    rw [sampled, hk', Bool.true_or]
  · have hfree : s.pubState r = .free := ((hc.free r).1 (by rw [hf]; exact List.mem_cons_self)).2.2
    have hother : ∀ k g q, g ∈ s.frames k → holds g = some q → q ≠ r := by
      rintro k g q hg hq rfl
      exact h.held k g q hg hq hfree
    rw [heq]
    refine h.locked rfl rfl rfl ?_ ?_ ?_ hp
    · intro k g q hg hq
      show update s.pubState r .live q ≠ .free
      rw [update_of_ne (hother k g q hg hq)]
      exact h.held k g q hg hq
    · intro k g q hg hq
      exact update_of_ne (hother k g q hg hq) _ _
    · intro k g q hg hq hs
      refine ⟨fun hk => ⟨(update_of_ne (hother k g q hg hq) _ _).symm.trans hs, ?_⟩, rfl⟩
      have hk' : (s.drainOpen || false) = true := hk
      rw [Bool.or_false] at hk'
      rw [sampled, hk', Bool.true_or]

theorem Chained.finish (h : Chained d s) (hw : walk s.kop = []) (t : Then) : Chained d (s.finish t) := by
  rcases finish_cases s t with heq | ⟨r, rest, line, e, f, hf, hl, he, heq⟩
  · rw [heq]
    exact h.same rfl rfl rfl rfl rfl rfl rfl (by rw [hw]; rfl) rfl
  · rw [heq]
    exact h.commit hf hl hw.symm he

/-- The records in a batch that an entry of a core could still hold: none, once the core's epoch has left its sample. -/
theorem Guarded.passed (h : Guarded d s) (ho : s.drainOpen = true) {f : Frame} (hf : f ∈ s.frames k) (hr : holds f = some r)
    (hs : s.pubState r = .draining) : ¬(s.drainEpoch k % 2 = 0 ∨ s.epoch k ≠ s.drainEpoch k) := by
  have hsam := h.sample k f r hf hr hs (by rw [sampled, ho, Bool.true_or])
  have hp := h.parity k
  rw [if_neg (List.ne_nil_of_mem hf)] at hp
  rintro (hk | hk)
  · omega
  · exact hk hsam.symm

theorem Guarded.check (h : Guarded d s) {n : Nat} {t : Then} (hkop : s.kop = .checking k n t)
    (hpass : s.drainEpoch k % 2 = 0 ∨ s.epoch k ≠ s.drainEpoch k) : Guarded d { s with kop := .checking (k + 1) n t } := by
  have hopen : s.drainOpen = true := by
    have hph := h.phase
    rw [State.phase, hkop] at hph
    exact hph
  refine h.locked rfl rfl rfl (fun j g q hg hq => h.held j g q hg hq) (fun _ _ _ _ _ => rfl) ?_ hopen
  intro j g q hg hq hs
  refine ⟨fun _ => ⟨hs, by rw [sampled, hopen, Bool.true_or]⟩, ?_⟩
  have hcl := h.clear j g q hg hq hs
  rw [cleared, hkop] at hcl
  have hjk : j ≠ k := by
    rintro rfl
    exact h.passed hopen hg hq hs hpass
  have hlt : ¬j < k := of_decide_eq_false hcl
  exact decide_eq_false (by omega)

theorem Guarded.takeSample (h : Guarded d s) {n : Nat} {t : Then} (hkop : s.kop = .sampling k n t) :
    Guarded d { s with drainEpoch := update s.drainEpoch k (s.epoch k), kop := .sampling (k + 1) n t } := by
  have hopen : s.drainOpen = false := by
    have hph := h.phase
    rw [State.phase, hkop] at hph
    exact hph
  refine ⟨h.parity, h.cores, h.held, h.read, ?_, fun _ _ _ _ _ _ => rfl, hopen⟩
  intro j g q hg hq hs hsam
  show update s.drainEpoch k (s.epoch k) j = s.epoch j
  by_cases hjk : j = k
  · rw [hjk, update_self]
  · rw [update_of_ne hjk]
    refine h.sample j g q hg hq hs ?_
    have hsam' : (s.drainOpen || decide (j < k + 1)) = true := hsam
    rw [hopen, Bool.false_or, decide_eq_true_eq] at hsam'
    rw [sampled, hkop]
    show (s.drainOpen || decide (j < k)) = true
    rw [hopen, Bool.false_or, decide_eq_true_eq]
    omega

theorem Guarded.unheld (h : Guarded d s) {rest : List Nat} {n : Nat} {t : Then} (hkop : s.kop = .reclaiming rest n t)
    {f : Frame} (hf : f ∈ s.frames k) (hr : holds f = some r) : s.pubState r ≠ .draining := by
  intro hs
  have hcl := h.clear k f r hf hr hs
  rw [cleared, hkop] at hcl
  cases hcl

theorem Guarded.moveOn (h : Guarded d s) {p : Kop} {o : Bool} {l : List Nat}
    (hdrain : ∀ k f r, f ∈ s.frames k → holds f = some r → s.pubState r = .draining →
      (({ s with kop := p, drainOpen := o, draining := l } : State).sampled k = true → s.sampled k = true) ∧
        ({ s with kop := p, drainOpen := o, draining := l } : State).cleared k = false)
    (hphase : ({ s with kop := p, drainOpen := o, draining := l } : State).phase) :
    Guarded d { s with kop := p, drainOpen := o, draining := l } :=
  h.locked rfl rfl rfl (fun k f r hf hr => h.held k f r hf hr) (fun _ _ _ _ _ => rfl)
    (fun k f r hf hr hs => ⟨fun hk => ⟨hs, (hdrain k f r hf hr hs).1 hk⟩, (hdrain k f r hf hr hs).2⟩) hphase

theorem Guarded.close (h : Guarded d s) {n : Nat} {t : Then} (ho : s.drainOpen = false) :
    Guarded d { s with
      draining := s.pending
      pending := []
      pubState := fun r => if r ∈ s.pending then .draining else s.pubState r
      kop := .sampling 0 n t } := by
  refine h.locked rfl rfl rfl ?_ (fun _ _ _ _ _ => rfl) ?_ ho
  · intro k f r hf hr
    show (if r ∈ s.pending then PubState.draining else s.pubState r) ≠ .free
    split_ifs
    · decide
    · exact h.held k f r hf hr
  · intro k f r _ _ _
    refine ⟨fun hk => ?_, rfl⟩
    have hk' : (s.drainOpen || decide (k < 0)) = true := hk
    rw [ho] at hk'
    simp at hk'

theorem Guarded.reclaim (h : Guarded d s) (hc : Chained d s) {rest : List Nat} {n : Nat} {t : Then}
    (hk : s.kop = .reclaiming (r :: rest) n t) (hd : s.draining = []) :
    Guarded d { s.pubReclaim r with kop := .reclaiming rest n t } := by
  have hr : s.pubState r = .draining := by
    refine (hc.draining r).1 ?_
    rw [hd, hk]
    exact List.mem_cons_self
  have hother : ∀ k f q, f ∈ s.frames k → holds f = some q → q ≠ r := by
    rintro k f q hf hq rfl
    exact h.unheld hk hf hq hr
  obtain ⟨line, -, -, heq⟩ := hc.pubReclaim_eq hr
  rw [heq]
  refine h.locked rfl rfl rfl ?_ ?_ ?_ hd
  · intro k f q hf hq
    show update s.pubState r .free q ≠ .free
    rw [update_of_ne (hother k f q hf hq)]
    exact h.held k f q hf hq
  · intro k f q hf hq
    exact update_of_ne (hother k f q hf hq) _ _
  · intro k f q hf hq hs
    exact absurd ((update_of_ne (hother k f q hf hq) _ _).symm.trans hs) (h.unheld hk hf hq)

/-- Both halves. -/
structure Sound (d : Build) (s : State) : Prop where
  chained : Chained d s
  guarded : Guarded d s

theorem Sound.hold (h : Sound d s) : Sound d (s.hold d) := by
  obtain ⟨hc, hg⟩ := h
  have hph := hg.phase
  unfold State.hold
  unfold State.phase at hph
  cases hkop : s.kop with
  | idle => exact ⟨hc, hg⟩
  | pass n t =>
    rw [hkop] at hph
    have hwalk : walk s.kop = [] := by
      rw [hkop]
      rfl
    dsimp only
    split_ifs with h2 ho hp
    · exact ⟨hc.finish hwalk t, hg.finish hc hph t⟩
    · refine ⟨hc.same rfl rfl rfl rfl rfl rfl rfl (by rw [hwalk]; rfl) rfl, ?_⟩
      refine hg.moveOn (fun k f r _ _ _ => ⟨fun _ => ?_, rfl⟩) ho
      rw [sampled, ho, Bool.true_or]
    · exact ⟨hc.finish hwalk t, hg.finish hc hph t⟩
    · have hfalse : s.drainOpen = false := Bool.eq_false_of_not_eq_true ho
      refine ⟨hc.close ?_, hg.close hfalse⟩
      rw [hph hfalse, hwalk]
      rfl
  | sampling k n t =>
    rw [hkop] at hph
    have hwalk : walk s.kop = [] := by
      rw [hkop]
      rfl
    dsimp only
    split_ifs with hk
    · refine ⟨hc.same rfl rfl rfl rfl rfl rfl rfl (by rw [hwalk]; rfl) rfl, ?_⟩
      refine hg.moveOn (fun j f r hf _ _ => ⟨fun _ => ?_, rfl⟩) rfl
      have hj := hg.cores j (List.ne_nil_of_mem hf)
      rw [sampled, hkop]
      show (s.drainOpen || decide (j < k)) = true
      rw [decide_eq_true (by omega), Bool.or_true]
    · exact ⟨hc.same rfl rfl rfl rfl rfl rfl rfl (by rw [hwalk]; rfl) rfl, hg.takeSample hkop⟩
  | checking k n t =>
    rw [hkop] at hph
    have hwalk : walk s.kop = [] := by
      rw [hkop]
      rfl
    dsimp only
    split_ifs with hk he hq
    · refine ⟨hc.same rfl rfl rfl rfl rfl rfl rfl ?_ rfl, ?_⟩
      · rw [hwalk]
        exact (List.append_nil s.draining).symm
      · refine hg.moveOn (fun j f r hf hr hs => ?_) rfl
        have hj := hg.cores j (List.ne_nil_of_mem hf)
        have hcl := hg.clear j f r hf hr hs
        rw [cleared, hkop] at hcl
        have hlt : ¬j < k := of_decide_eq_false hcl
        omega
    · exact ⟨hc.same rfl rfl rfl rfl rfl rfl rfl (by rw [hwalk]; rfl) rfl, hg.check hkop (.inl he)⟩
    · refine ⟨hc.finish hwalk t, hg.finish hc (fun hf => ?_) t⟩
      rw [hph] at hf
      cases hf
    · exact ⟨hc.same rfl rfl rfl rfl rfl rfl rfl (by rw [hwalk]; rfl) rfl, hg.check hkop (.inr hq)⟩
  | reclaiming rest n t =>
    rw [hkop] at hph
    cases rest with
    | nil =>
      refine ⟨hc.same rfl rfl rfl rfl rfl rfl rfl (by rw [hkop]; rfl) rfl, ?_⟩
      refine hg.moveOn (fun j f r hf hr hs => ?_) fun _ => hph
      exact absurd hs (hg.unheld hkop hf hr)
    | cons r rest => exact ⟨hc.reclaim hkop hph, hg.reclaim hc hkop hph⟩

end State
end Publish
end KickOS
