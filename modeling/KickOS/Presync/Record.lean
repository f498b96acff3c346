import KickOS.Presync.Model

/-! What a record stands for.

The frames of a noted span stay allocated, because the calling thread's own table and space keep its block. So every
noted granule is synced on the way to the locked pass, and the record is dropped by whoever completes an edit of one
after that. `presync_live` counts the live records, so that the drop is never skipped while there is one. -/

namespace KickOS
namespace Presync

variable {P : Pool} {n : Nat} {s s' t : St P n} {i j : Fin n} {sp x : Span} {p : Nat}

/-! ### Spans -/

theorem mem_granules : p ∈ sp.granules P ↔ ∃ k < sp.pages, sp.pa + k * P.granule = p := by
  simp [Span.granules]

theorem granule_bounds (h : p ∈ sp.granules P) : sp.pa ≤ p ∧ p < sp.stop P := by
  obtain ⟨k, hk, rfl⟩ := mem_granules.mp h
  refine ⟨Nat.le_add_right _ _, ?_⟩
  exact Nat.add_lt_add_left (Nat.mul_lt_mul_of_pos_right hk P.pos) _

theorem meets_of_granule {r : List Span} (hx : x ∈ r) (hpx : p ∈ x.granules P) (hp : p ∈ sp.granules P) :
    presyncMeets P r sp = true := by
  obtain ⟨hlo, hhi⟩ := granule_bounds hpx
  obtain ⟨hlo', hhi'⟩ := granule_bounds hp
  refine List.any_eq_true.mpr ⟨x, hx, decide_eq_true ⟨?_, ?_⟩⟩
  · exact Nat.lt_of_le_of_lt hlo hhi'
  · exact Nat.lt_of_le_of_lt hlo' hhi

theorem granules_of_covers (hx : P.granule ∣ x.pa) (hsp : P.granule ∣ sp.pa) (hlo : x.pa ≤ sp.pa)
    (hhi : sp.stop P ≤ x.stop P) (hp : p ∈ sp.granules P) : p ∈ x.granules P := by
  have hlt := (granule_bounds hp).2
  obtain ⟨k, -, rfl⟩ := mem_granules.mp hp
  obtain ⟨d, hd⟩ := Nat.dvd_sub hsp hx
  have heq : sp.pa = x.pa + d * P.granule := by
    rw [Nat.mul_comm d]
    omega
  refine mem_granules.mpr ⟨d + k, ?_, ?_⟩
  · have hlt' : x.pa + (d + k) * P.granule < x.pa + x.pages * P.granule := by
      calc x.pa + (d + k) * P.granule = sp.pa + k * P.granule := by rw [heq, Nat.add_mul, Nat.add_assoc]
        _ < sp.stop P := hlt
        _ ≤ x.stop P := hhi
    exact Nat.lt_of_mul_lt_mul_right (Nat.lt_of_add_lt_add_left hlt')
  · rw [heq, Nat.add_mul, Nat.add_assoc]

/-! ### The log -/

/-- The granule was synced by the call, and no other call has completed an edit of it since. -/
def Synced (P : Pool) (log : List (Event n)) (i : Fin n) (p : Nat) : Prop :=
  ∃ since before, log = since ++ Event.synced i p :: before ∧ Event.planned i ∉ since ∧
    ∀ k sp, k ≠ i → Event.edited k sp ∈ since → p ∉ sp.granules P

/-- What may be added to the log without undoing a sync. -/
def Harmless (P : Pool) (e : Event n) (i : Fin n) (p : Nat) : Prop :=
  e ≠ .planned i ∧ ∀ k sp, k ≠ i → e = .edited k sp → p ∉ sp.granules P

theorem Synced.cons {log : List (Event n)} {e : Event n} (h : Synced P log i p) (he : Harmless P e i p) :
    Synced P (e :: log) i p := by
  obtain ⟨since, before, rfl, hplan, hedit⟩ := h
  refine ⟨e :: since, before, rfl, ?_, ?_⟩
  · intro hmem
    rcases List.mem_cons.mp hmem with heq | hmem
    · exact he.1 heq.symm
    · exact hplan hmem
  · intro k sp hk hmem
    rcases List.mem_cons.mp hmem with heq | hmem
    · exact he.2 k sp hk heq.symm
    · exact hedit k sp hk hmem

theorem synced_now (log : List (Event n)) : Synced P (.synced i p :: log) i p :=
  ⟨[], log, rfl, by simp, by simp⟩

/-- Every span of the pool mapped while it owed a sync had each granule synced. -/
def Sound (P : Pool) (log : List (Event n)) : Prop :=
  ∀ i sp earlier, (Event.mapped i sp true :: earlier) <:+ log → presyncPoolPages P sp ≠ 0 →
    ∀ p ∈ sp.granules P, Synced P earlier i p

theorem Sound.cons {log : List (Event n)} {e : Event n} (h : Sound P log)
    (he : ∀ i sp, e = .mapped i sp true → presyncPoolPages P sp ≠ 0 → ∀ p ∈ sp.granules P, Synced P log i p) :
    Sound P (e :: log) := by
  intro i sp earlier hsuf hpool p hp
  rcases List.suffix_cons_iff.mp hsuf with heq | hsuf
  · obtain ⟨he', rfl⟩ := List.cons.inj heq
    exact he i sp he'.symm hpool p hp
  · exact h i sp earlier hsuf hpool p hp

theorem Sound.cons_other {log : List (Event n)} {e : Event n} (h : Sound P log) (he : ∀ i sp, e ≠ .mapped i sp true) :
    Sound P (e :: log) :=
  h.cons fun i sp heq => absurd heq (he i sp)

/-! ### Blocks -/

/-- The blocks that are named are there, and each has its frames to itself. -/
structure Kept (s : St P n) : Prop where
  held : ∀ i o, o ∈ s.names i → ∃ b, s.blocks o = some b
  alloc : ∀ o b, s.blocks o = some b → ∀ p ∈ b.frames, s.frames p = true
  apart : ∀ o o' b b', o ≠ o' → s.blocks o = some b → s.blocks o' = some b' → ∀ p ∈ b.frames, p ∉ b'.frames

theorem Kept.congr (h : Kept s) (hb : t.blocks = s.blocks) (hf : t.frames = s.frames) (hn : t.names = s.names) :
    Kept t := by
  refine ⟨?_, ?_, ?_⟩
  · intro i o ho
    rw [hb]
    rw [hn] at ho
    exact h.held i o ho
  · intro o b ho p hp
    rw [hb] at ho
    rw [hf]
    exact h.alloc o b ho p hp
  · intro o o' b b' hne ho ho'
    rw [hb] at ho ho'
    exact h.apart o o' b b' hne ho ho'

/-- A pool span's block, kept by the thread. -/
def Names (s : St P n) (i : Fin n) (sp : Span) : Prop :=
  presyncPoolPages P sp ≠ 0 ∧ ∃ o b, o ∈ s.names i ∧ s.blocks o = some b ∧ b.span = sp

theorem Names.allocated (hk : Kept s) (h : Names s i sp) (hp : p ∈ sp.granules P) : s.frames p = true := by
  obtain ⟨hpool, o, b, -, hb, rfl⟩ := h
  refine hk.alloc o b hb p ?_
  rw [Block.frames, if_neg hpool]
  exact hp

/-! ### One thread's call -/

/-- Each noted granule is still to be synced, or is synced. -/
def Covered (s : St P n) (i : Fin n) (todo : List Nat) : Prop :=
  (∀ p ∈ todo, ∃ sp ∈ (s.recs i).noted, p ∈ sp.granules P) ∧
    ((s.recs i).live = true → ∀ sp ∈ (s.recs i).noted, ∀ p ∈ sp.granules P, p ∈ todo ∨ Synced P s.log i p)

/-- What the record holds at each point of its call. -/
def Ahead (s : St P n) (i : Fin n) : Phase P → Prop
  | .user | .again _ => (s.recs i).noted = [] ∧ (s.recs i).live = false
  | .sync _ todo => Covered s i todo
  | .found _ p todo => Covered s i (p :: todo)
  | .ended _ => True

/-- The records of the calls in flight. -/
structure Call (s : St P n) (i : Fin n) : Prop where
  names : ∀ sp ∈ (s.recs i).noted, Names s i sp
  ahead : Ahead s i (s.phase i)

def liveSet (s : St P n) : Finset (Fin n) := Finset.univ.filter fun j => (s.recs j).live = true

@[simp] theorem mem_liveSet : j ∈ liveSet s ↔ (s.recs j).live = true := by simp [liveSet]

/-- `presync_live` is the number of live records. -/
def Counted (s : St P n) : Prop := s.presyncLive = (liveSet s).card

structure Inv (s : St P n) : Prop where
  kept : Kept s
  counted : Counted s
  call : ∀ i, Call s i
  sound : Sound P s.log

theorem start_inv : Inv (St.start P n) where
  kept := ⟨fun _ _ ho => absurd ho (List.not_mem_nil), fun _ _ hb => absurd hb (by simp [St.start]),
    fun _ _ _ _ _ hb => absurd hb (by simp [St.start])⟩
  counted := by simp [Counted, liveSet, St.start, Record.fresh]
  call i := ⟨fun _ hsp => absurd hsp (List.not_mem_nil), rfl, rfl⟩
  sound := fun _ _ _ hsuf => by simp [St.start] at hsuf

theorem Call.congr (h : Call s i) (hnoted : (t.recs i).noted = (s.recs i).noted)
    (hlive : (t.recs i).live = true → (s.recs i).live = true) (hphase : t.phase i = s.phase i)
    (hnames : ∀ sp ∈ (s.recs i).noted, Names s i sp → Names t i sp)
    (hlog : (t.recs i).live = true → ∀ sp ∈ (s.recs i).noted, ∀ p ∈ sp.granules P,
      Synced P s.log i p → Synced P t.log i p) : Call t i := by
  have hcov : ∀ todo, Covered s i todo → Covered t i todo := by
    rintro todo ⟨htodo, hsync⟩
    refine ⟨by rw [hnoted]; exact htodo, fun hl sp hsp p hp => ?_⟩
    rw [hnoted] at hsp
    exact (hsync (hlive hl) sp hsp p hp).imp_right (hlog hl sp hsp p hp)
  have hoff : (s.recs i).live = false → (t.recs i).live = false := by
    intro hs
    exact Bool.eq_false_iff.mpr fun hl => Bool.false_ne_true (hs.symm.trans (hlive hl))
  refine ⟨?_, ?_⟩
  · intro sp hsp
    rw [hnoted] at hsp
    exact hnames sp hsp (h.names sp hsp)
  · have ha := h.ahead
    rw [hphase]
    cases hp : s.phase i <;> rw [hp] at ha
    case user => exact ⟨hnoted.trans ha.1, hoff ha.2⟩
    case again => exact ⟨hnoted.trans ha.1, hoff ha.2⟩
    case sync => exact hcov _ ha
    case found => exact hcov _ ha
    case ended => trivial

end Presync
end KickOS
