import Mathlib.Data.List.TakeWhile
import KickOS.Time.Model

/-! The queue of deadlines as a list, through each function that touches it. -/

namespace KickOS
namespace Time

open Lib.Linked

namespace State
open Function (update update_apply update_idem update_of_ne update_self)

variable {s s' u : State} {core now n t : Nat} {l m k : List Nat} {p : Pass} {move : Int}

/-- The order of the queue: by deadline, and by arrival where no wall shift came between. -/
def Before (thread : Nat → Thread) (a b : Nat) : Prop :=
  (thread a).deadline ≤ (thread b).deadline ∧
    ((thread a).deadline = (thread b).deadline → (thread a).shifted = false → (thread b).shifted = false →
      (thread a).arrived < (thread b).arrived)

structure Queue (s : State) (l : List Nat) : Prop where
  lists : s.links.Lists .sleepq l
  moved : s.links.root .moved = none
  sorted : l.Pairwise (Before s.thread)
  mem : ∀ t, t ∈ l ↔ (s.thread t).onTimer = true
  blocked : ∀ t ∈ l, (s.thread t).state = .blocked
  small : ∀ t ∈ l, t < s.count
  arrived : ∀ t ∈ l, (s.thread t).arrived < s.arrivals

/-- What scheduling does: no deadline and no parked thread changes. -/
structure Quiet (s s' : State) : Prop where
  count : s'.count = s.count
  links : s'.links = s.links
  arrivals : s'.arrivals = s.arrivals
  offset : s'.offset = s.offset
  clock : s'.clock = s.clock
  lastSet : s'.lastSet = s.lastSet
  thread : ∀ t, ∃ st ev, s'.thread t = { s.thread t with state := st, timedEvent := ev } ∧
    (st = .blocked ↔ (s.thread t).state = .blocked)

/-- Whoever is on the queue afterwards was on it, with the same deadline. -/
structure Leaves (s s' : State) : Prop where
  offset : s'.offset = s.offset
  clock : s'.clock = s.clock
  lastSet : s'.lastSet = s.lastSet
  thread : ∀ t, (s'.thread t).onTimer = true → (s.thread t).onTimer = true ∧ (s'.thread t).deadline = (s.thread t).deadline ∧
    (s'.thread t).timerWall = (s.thread t).timerWall ∧ (s'.thread t).target = (s.thread t).target ∧
    (s'.thread t).armedAt = (s.thread t).armedAt

theorem Quiet.refl (s : State) : Quiet s s := ⟨rfl, rfl, rfl, rfl, rfl, rfl, fun _ => ⟨_, _, rfl, .rfl⟩⟩

theorem Quiet.trans (h : Quiet s s') (h' : Quiet s' u) : Quiet s u := by
  refine ⟨h'.count.trans h.count, h'.links.trans h.links, h'.arrivals.trans h.arrivals, h'.offset.trans h.offset,
    h'.clock.trans h.clock, h'.lastSet.trans h.lastSet, fun t => ?_⟩
  obtain ⟨st, ev, h1, h2⟩ := h.thread t
  obtain ⟨st', ev', h3, h4⟩ := h'.thread t
  refine ⟨st', ev', by rw [h3, h1], h4.trans ?_⟩
  rw [h1]
  exact h2

theorem Leaves.refl (s : State) : Leaves s s := ⟨rfl, rfl, rfl, fun _ h => ⟨h, rfl, rfl, rfl, rfl⟩⟩

theorem Leaves.trans (h : Leaves s s') (h' : Leaves s' u) : Leaves s u := by
  refine ⟨h'.offset.trans h.offset, h'.clock.trans h.clock, h'.lastSet.trans h.lastSet, fun t ht => ?_⟩
  obtain ⟨h1, h2, h3, h4, h5⟩ := h'.thread t ht
  obtain ⟨g1, g2, g3, g4, g5⟩ := h.thread t h1
  exact ⟨g1, h2.trans g2, h3.trans g3, h4.trans g4, h5.trans g5⟩

theorem Quiet.leaves (h : Quiet s s') : Leaves s s' := by
  refine ⟨h.offset, h.clock, h.lastSet, fun t ht => ?_⟩
  obtain ⟨st, ev, h1, -⟩ := h.thread t
  rw [h1] at ht ⊢
  exact ⟨ht, rfl, rfl, rfl, rfl⟩

theorem Before.congr {f g : Nat → Thread} (h : l.Pairwise (Before f))
    (he : ∀ t ∈ l, (g t).deadline = (f t).deadline ∧ (g t).shifted = (f t).shifted ∧ (g t).arrived = (f t).arrived) :
    l.Pairwise (Before g) := by
  refine h.imp_of_mem fun {a b} ha hb hab => ?_
  obtain ⟨a1, a2, a3⟩ := he a ha
  obtain ⟨b1, b2, b3⟩ := he b hb
  unfold Before
  rw [a1, a2, a3, b1, b2, b3]
  exact hab

theorem Queue.quiet (h : Queue s l) (hq : Quiet s s') : Queue s' l := by
  have hm : ∀ t, (s'.thread t).onTimer = (s.thread t).onTimer := by
    intro t
    obtain ⟨st, ev, h1, -⟩ := hq.thread t
    rw [h1]
  refine ⟨hq.links ▸ h.lists, hq.links ▸ h.moved, Before.congr h.sorted fun t _ => ?_, fun t => ?_, fun t ht => ?_,
    fun t ht => ?_, fun t ht => ?_⟩
  · obtain ⟨st, ev, h1, -⟩ := hq.thread t
    rw [h1]
    exact ⟨rfl, rfl, rfl⟩
  · rw [hm, h.mem]
  · obtain ⟨st, ev, h1, h2⟩ := hq.thread t
    rw [h1]
    exact h2.2 (h.blocked t ht)
  · rw [hq.count]
    exact h.small t ht
  · obtain ⟨st, ev, h1, -⟩ := hq.thread t
    rw [h1, hq.arrivals]
    exact h.arrived t ht

theorem Queue.length_le (h : Queue s l) : l.length ≤ s.count := by
  have hsub : l ⊆ List.range s.count := fun t ht => List.mem_range.2 (h.small t ht)
  have := (List.subperm_of_subset h.lists.nodup hsub).length_le
  rwa [List.length_range] at this

/-! ### Scheduling -/

theorem setThread_apply (s : State) (t u : Nat) (f : Thread → Thread) :
    (s.setThread t f).thread u = if u = t then f (s.thread u) else s.thread u := by
  unfold setThread
  dsimp only
  rw [update_apply]
  split_ifs with h
  · rw [h]
  · rfl

theorem ktimeRearm_quiet (s : State) (core : Nat) (incoming tick : Option Nat) : Quiet s (s.ktimeRearm core incoming tick) := by
  unfold ktimeRearm
  dsimp only
  split_ifs <;> exact ⟨rfl, rfl, rfl, rfl, rfl, rfl, fun t => ⟨_, _, rfl, .rfl⟩⟩

theorem ktimeDisarm_quiet (s : State) (core : Nat) : Quiet s (s.ktimeDisarm core) :=
  ⟨rfl, rfl, rfl, rfl, rfl, rfl, fun _ => ⟨_, _, rfl, .rfl⟩⟩

theorem setThread_quiet {f : Thread → Thread} (ht : (s.thread t).state ≠ .blocked)
    (hf : ∃ st ev, f (s.thread t) = { s.thread t with state := st, timedEvent := ev } ∧ st ≠ .blocked) :
    Quiet s (s.setThread t f) := by
  refine ⟨rfl, rfl, rfl, rfl, rfl, rfl, fun u => ?_⟩
  rw [setThread_apply]
  split_ifs with hu
  · subst hu
    obtain ⟨st, ev, h1, h2⟩ := hf
    exact ⟨st, ev, h1, iff_of_false h2 ht⟩
  · exact ⟨_, _, rfl, .rfl⟩

theorem timedEvent_quiet (s : State) (t event : Nat) : Quiet s (s.setThread t fun x => { x with timedEvent := event }) := by
  refine ⟨rfl, rfl, rfl, rfl, rfl, rfl, fun u => ?_⟩
  rw [setThread_apply]
  split_ifs with hu
  · exact ⟨_, _, rfl, .rfl⟩
  · exact ⟨_, _, rfl, .rfl⟩

theorem displace_quiet (s : State) (core : Nat) : Quiet s (s.displace core) := by
  unfold displace
  cases hc : s.current core with
  | none => exact .refl s
  | some prev =>
    dsimp only
    split_ifs with hrun
    · exact setThread_quiet (by rw [hrun]; decide) ⟨.ready, _, rfl, by decide⟩
    · exact .refl s

theorem switchBook_quiet (hp : (s.thread p.next).state = .ready) : Quiet s (s.switchBook core p) := by
  have h1 := displace_quiet s core
  obtain ⟨st, ev, h2, h3⟩ := h1.thread p.next
  have h4 : ((s.displace core).thread p.next).state ≠ .blocked := by
    rw [h2]
    intro hb
    rw [h3.1 hb] at hp
    cases hp
  have h5 := h1.trans (setThread_quiet (f := fun x => { x with state := .running, timedEvent := p.timedEvent }) h4
    ⟨.running, p.timedEvent, rfl, by decide⟩)
  refine Quiet.trans ?_ (ktimeRearm_quiet _ core (some p.next) p.tick)
  exact { h5 with }

theorem pickAndSeat_quiet (s : State) (core : Nat) (pick : Option Pass) : Quiet s (s.pickAndSeat core pick) := by
  unfold pickAndSeat
  cases pick with
  | none => exact .refl s
  | some p =>
    dsimp only
    split_ifs with hp
    · exact switchBook_quiet hp
    · exact .refl s

theorem tickRr_quiet (s : State) (core now : Nat) (i : Interrupt) : Quiet s (s.tickRr core now i) := by
  unfold tickRr
  cases s.current core with
  | none => exact .refl s
  | some c =>
    dsimp only
    split_ifs with h
    · exact .refl s
    · exact (timedEvent_quiet s c i.slice).trans (pickAndSeat_quiet _ core i.rotate)

/-! ### Insertion -/

theorem lt_of_mem_dropWhile {f : Nat → Nat} {d a : Nat} (hm : m.Pairwise fun a b => f a ≤ f b)
    (ha : a ∈ m.dropWhile fun b => f b ≤ d) : d < f a := by
  induction m with
  | nil => cases ha
  | cons b m ih =>
    obtain ⟨h1, h2⟩ := List.pairwise_cons.1 hm
    rw [List.dropWhile_cons] at ha
    split_ifs at ha with hb
    · exact ih h2 ha
    · have hb' : d < f b := not_le.1 fun hle => hb (decide_eq_true hle)
      rcases List.mem_cons.1 ha with rfl | ha
      · exact hb'
      · exact hb'.trans_le (h1 a ha)

theorem sleepqInsertFrom_eq (hl : s.links.Lists .sleepq (l ++ m)) (ht : t ∉ l ++ m) (hn : m.length ≤ s.count) :
    ∃ links' : Heap Root Nat, s.sleepqInsertFrom (place .sleepq l) t =
        ({ s with thread := update s.thread t { s.thread t with onTimer := true }, links := links' },
          place .sleepq (l ++ m.takeWhile (fun a => (s.thread a).deadline ≤ (s.thread t).deadline) ++ [t])) ∧
      links'.Lists .sleepq (l ++ m.takeWhile (fun a => (s.thread a).deadline ≤ (s.thread t).deadline) ++
        t :: m.dropWhile (fun a => (s.thread a).deadline ≤ (s.thread t).deadline)) ∧
      ∀ k, s.links.Lists .moved k → (∀ a ∈ k, a ≠ t ∧ a ∉ l ++ m) → links'.Lists .moved k := by
  set pass : Nat → Bool := fun a => (s.thread a).deadline ≤ (s.thread t).deadline with hpass
  have hw : s.links.walk pass s.count (place .sleepq l) = place .sleepq (l ++ m.takeWhile pass) := hl.walk hn
  have hsplit : l ++ m = (l ++ m.takeWhile pass) ++ m.dropWhile pass := by
    rw [List.append_assoc, List.takeWhile_append_dropWhile]
  refine ⟨_, ?_, Heap.Lists.insert (hsplit ▸ hl) (hsplit ▸ ht), fun k hk hd => ?_⟩
  · unfold sleepqInsertFrom
    rw [← hpass]
    dsimp only
    rw [hw, place_append_singleton]
  · refine (hk.stray fun htk => (hd t htk).1 rfl).other (by decide) fun a ha hal => ?_
    exact (hd a ha).2 (hsplit ▸ List.mem_append_left _ hal)

theorem Before.insert {f : Nat → Thread} (hs : (l ++ m).Pairwise (Before f)) (hl : ∀ a ∈ l, (f a).deadline ≤ (f t).deadline)
    (hb : ∀ a ∈ l ++ m, (f a).shifted = false → (f t).shifted = false → (f a).arrived < (f t).arrived) :
    (l ++ m.takeWhile (fun a => (f a).deadline ≤ (f t).deadline) ++
      t :: m.dropWhile (fun a => (f a).deadline ≤ (f t).deadline)).Pairwise (Before f) := by
  set pass : Nat → Bool := fun a => (f a).deadline ≤ (f t).deadline with hpass
  have hsplit : l ++ m = (l ++ m.takeWhile pass) ++ m.dropWhile pass := by
    rw [List.append_assoc, List.takeWhile_append_dropWhile]
  have hle : ∀ a ∈ l ++ m.takeWhile pass, (f a).deadline ≤ (f t).deadline := by
    intro a ha
    rcases List.mem_append.1 ha with ha | ha
    · exact hl a ha
    · have hp : pass a = true := List.mem_takeWhile_imp ha
      exact of_decide_eq_true hp
  have hlt : ∀ a ∈ m.dropWhile pass, (f t).deadline < (f a).deadline := by
    intro a ha
    have hm : m.Pairwise fun a b => (f a).deadline ≤ (f b).deadline :=
      (List.pairwise_append.1 hs).2.1.imp fun h => h.1
    exact lt_of_mem_dropWhile hm ha
  rw [hsplit] at hs hb
  obtain ⟨h1, h2, h3⟩ := List.pairwise_append.1 hs
  refine List.pairwise_append.2 ⟨h1, List.pairwise_cons.2 ⟨fun a ha => ?_, h2⟩, fun a ha b hb' => ?_⟩
  · exact ⟨(hlt a ha).le, fun he => absurd he (hlt a ha).ne⟩
  · rcases List.mem_cons.1 hb' with rfl | hb'
    · exact ⟨hle a ha, fun _ => hb a (List.mem_append_left _ ha)⟩
    · exact h3 a ha b hb'

theorem Queue.sleepqInsert (h : Queue s l) (ht : (s.thread t).onTimer = false) (hb : (s.thread t).state = .blocked)
    (hc : t < s.count) (wall : Bool) : ∃ l', Queue (s.sleepqInsert t wall) l' := by
  have htl : t ∉ l := fun hm => by rw [(h.mem t).1 hm] at ht; cases ht
  obtain ⟨links', heq, hlists, hmoved⟩ := sleepqInsertFrom_eq (l := []) h.lists htl h.length_le
  have heq' : s.sleepqInsert t wall =
      { s with
        thread := update s.thread t
          { s.thread t with onTimer := true, timerWall := wall, arrived := s.arrivals, shifted := false }
        links := links'
        arrivals := s.arrivals + 1 } := by
    unfold State.sleepqInsert
    rw [place_nil] at heq
    rw [heq]
    dsimp only
    rw [update_self, update_idem]
  rw [heq']
  set f : Nat → Thread := update s.thread t
    { s.thread t with onTimer := true, timerWall := wall, arrived := s.arrivals, shifted := false } with hf
  have hft : f t = { s.thread t with onTimer := true, timerWall := wall, arrived := s.arrivals, shifted := false } :=
    update_self ..
  have hfo : ∀ u, u ≠ t → f u = s.thread u := fun u hu => update_of_ne hu _ _
  have hdl : ∀ u, (f u).deadline = (s.thread u).deadline := by
    intro u
    rcases eq_or_ne u t with rfl | hu
    · rw [hft]
    · rw [hfo u hu]
  set l' := [] ++ l.takeWhile (fun a => (s.thread a).deadline ≤ (s.thread t).deadline) ++
    t :: l.dropWhile (fun a => (s.thread a).deadline ≤ (s.thread t).deadline) with hl'
  have hmem : ∀ u, u ∈ l' ↔ u = t ∨ u ∈ l := by
    intro u
    rw [hl', List.nil_append, List.mem_append, List.mem_cons, ← or_assoc, or_comm (a := u ∈ l.takeWhile _), or_assoc,
      ← List.mem_append, List.takeWhile_append_dropWhile]
  refine ⟨l', hlists, ?_, ?_, fun u => ?_, fun u hu => ?_, fun u hu => ?_, fun u hu => ?_⟩
  · exact (hmoved [] h.moved fun a ha => by cases ha)
  · have hs : l.Pairwise (Before f) := Before.congr h.sorted fun u hu => by
      rw [hfo u fun he => htl (he ▸ hu)]
      exact ⟨rfl, rfl, rfl⟩
    have hins := Before.insert (l := []) (t := t) hs (fun a ha => by cases ha) fun a ha _ _ => by
      rw [hft, hfo a fun he => htl (he ▸ ha)]
      exact h.arrived a ha
    simp only [hdl] at hins
    exact hins
  · rw [hmem]
    dsimp only
    rcases eq_or_ne u t with rfl | hu
    · exact iff_of_true (.inl rfl) (by rw [hft])
    · rw [or_iff_right hu, h.mem, hfo u hu]
  · dsimp only
    rcases (hmem u).1 hu with rfl | hul
    · rw [hft]
      exact hb
    · rw [hfo u fun he => htl (he ▸ hul)]
      exact h.blocked u hul
  · rcases (hmem u).1 hu with rfl | hul
    · exact hc
    · exact h.small u hul
  · dsimp only
    rcases (hmem u).1 hu with rfl | hul
    · rw [hft]
      exact Nat.lt_succ_self _
    · rw [hfo u fun he => htl (he ▸ hul)]
      exact Nat.lt_succ_of_lt (h.arrived u hul)

/-! ### Removal -/

theorem Queue.sleepqRemove (h : Queue s l) (ht : t ∈ l) : ∃ links' : Heap Root Nat,
    s.sleepqRemove t = { s with
        thread := update s.thread t { s.thread t with onTimer := false, timerWall := false }, links := links' } ∧
      Queue (s.sleepqRemove t) (l.erase t) := by
  obtain ⟨x, y, rfl⟩ := List.append_of_mem ht
  have hnd := h.lists.nodup
  have htx : t ∉ x := fun hx => List.disjoint_of_nodup_append hnd hx (List.mem_cons_self ..)
  have hty : t ∉ y := (List.nodup_cons.1 (List.nodup_append.1 hnd).2.1).1
  have htake : (x ++ t :: y).takeWhile (fun a => a != t) = x := by
    have hpos : ∀ a ∈ x, (a != t) = true := by
      intro a ha
      rw [bne_iff_ne]
      rintro rfl
      exact htx ha
    rw [List.takeWhile_append_of_pos hpos, List.takeWhile_cons, if_neg (by simp), List.append_nil]
  have hw : s.links.walk (fun a => a != t) s.count (.root .sleepq) = place .sleepq x := by
    have hwalk : s.links.walk (fun a => a != t) s.count (place .sleepq []) =
        place .sleepq ([] ++ (x ++ t :: y).takeWhile fun a => a != t) := Heap.Lists.walk h.lists h.length_le
    rwa [List.nil_append, htake] at hwalk
  have heq : s.sleepqRemove t = { s with
      thread := update s.thread t { s.thread t with onTimer := false, timerWall := false }
      links := (s.links.put (place .sleepq x) (s.links.next t)).put (.next t) none } := by
    unfold State.sleepqRemove
    dsimp only
    rw [hw, if_pos h.lists.get_cons]
  have herase : (x ++ t :: y).erase t = x ++ y := by
    rw [List.erase_append_right _ htx, List.erase_cons_head]
  have hsub : ∀ u ∈ x ++ y, u ∈ x ++ t :: y ∧ u ≠ t := by
    intro u hu
    rcases List.mem_append.1 hu with hu | hu
    · exact ⟨List.mem_append_left _ hu, fun he => htx (he ▸ hu)⟩
    · exact ⟨List.mem_append_right _ (List.mem_cons_of_mem _ hu), fun he => hty (he ▸ hu)⟩
  have hmoved : ((s.links.put (place .sleepq x) (s.links.next t)).put (.next t) none).Lists .moved [] :=
    (Heap.Lists.other (m := []) h.moved (by decide) fun a ha => by cases ha).stray (List.not_mem_nil)
  refine ⟨_, heq, ?_⟩
  rw [heq, herase]
  refine ⟨(h.lists.cut).stray fun hm => ?_, hmoved, ?_, fun u => ?_, fun u hu => ?_, fun u hu => ?_, fun u hu => ?_⟩
  · exact (hsub t hm).2 rfl
  · refine Before.congr (h.sorted.sublist ?_) fun u hu => ?_
    · exact List.Sublist.append_left (List.sublist_cons_self ..) x
    · dsimp only
      rw [update_of_ne (hsub u hu).2]
      exact ⟨rfl, rfl, rfl⟩
  · dsimp only
    rcases eq_or_ne u t with rfl | hu
    · rw [update_self]
      exact iff_of_false (fun hm => (hsub u hm).2 rfl) Bool.false_ne_true
    · rw [update_of_ne hu, ← h.mem, List.mem_append, List.mem_append, List.mem_cons, or_iff_right hu]
  · dsimp only
    rw [update_of_ne (hsub u hu).2]
    exact h.blocked u (hsub u hu).1
  · exact h.small u (hsub u hu).1
  · dsimp only
    rw [update_of_ne (hsub u hu).2]
    exact h.arrived u (hsub u hu).1

theorem leaves_unqueue (links' : Heap Root Nat) {x : Thread} (hx : x.onTimer = false) :
    Leaves s { s with thread := update s.thread t x, links := links' } := by
  refine ⟨rfl, rfl, rfl, fun u hu => ?_⟩
  dsimp only at hu ⊢
  rcases eq_or_ne u t with rfl | he
  · rw [update_self, hx] at hu
    cases hu
  · rw [update_of_ne he] at hu ⊢
    exact ⟨hu, rfl, rfl, rfl, rfl⟩

end State

end Time
end KickOS
