import KickOS.Time.Queue

/-! A wall shift: the marked deadlines leave the queue, move, and come back in where they now belong. -/

namespace KickOS
namespace Time

open Lib.Linked

/-- A deadline of a wall shift: moved, and no sooner than the timer takes one. -/
def Thread.move (x : Thread) (now : Nat) (move : Int) : Thread :=
  { x with deadline := floored now (Time.shifted x.deadline move), shifted := true }

namespace Thread

variable (x : Thread) (now : Nat) (move : Int)

@[simp] theorem move_state : (x.move now move).state = x.state := by rw [Thread.move]
@[simp] theorem move_onTimer : (x.move now move).onTimer = x.onTimer := by rw [Thread.move]
@[simp] theorem move_arrived : (x.move now move).arrived = x.arrived := by rw [Thread.move]
@[simp] theorem move_shifted : (x.move now move).shifted = true := by rw [Thread.move]
@[simp] theorem move_target : (x.move now move).target = x.target := by rw [Thread.move]
@[simp] theorem move_armedAt : (x.move now move).armedAt = x.armedAt := by rw [Thread.move]
@[simp] theorem move_deadline : (x.move now move).deadline = floored now (Time.shifted x.deadline move) := by
  rw [Thread.move]

end Thread

namespace State

variable {s s' u : State} {core now n t : Nat} {l m k : List Nat} {move : Int}

def moveWall (f : Nat → Thread) (now : Nat) (move : Int) (m : List Nat) (t : Nat) : Thread :=
  if t ∈ m ∧ (f t).timerWall = true then (f t).move now move else f t

theorem floored_mono {a b : Nat} (h : a ≤ b) (now : Nat) : floored now a ≤ floored now b := by
  unfold floored
  dsimp only
  split_ifs <;> omega

theorem shifted_mono {a b : Nat} (h : a ≤ b) (move : Int) : shifted a move ≤ shifted b move := by
  unfold shifted
  dsimp only
  split_ifs <;> omega

theorem moveWall_cases (f : Nat → Thread) (now : Nat) (move : Int) (m : List Nat) (t : Nat) :
    (t ∈ m ∧ (f t).timerWall = true ∧ moveWall f now move m t = (f t).move now move) ∨
      ((t ∈ m → (f t).timerWall = false) ∧ moveWall f now move m t = f t) := by
  by_cases h : t ∈ m ∧ (f t).timerWall = true
  · exact .inl ⟨h.1, h.2, if_pos h⟩
  · refine .inr ⟨fun ht => ?_, if_neg h⟩
    exact Bool.eq_false_iff.2 fun hw => h ⟨ht, hw⟩

theorem moveWall_cons {f : Nat → Thread} (hw : (f t).timerWall = true) (ht : t ∉ m) :
    moveWall (Function.update f t ((f t).move now move)) now move m = moveWall f now move (t :: m) := by
  funext u
  unfold moveWall
  rcases eq_or_ne u t with rfl | hu
  · rw [if_neg fun h => ht h.1, if_pos ⟨List.mem_cons_self .., hw⟩, Function.update_self]
  · rw [Function.update_of_ne hu]
    refine if_congr ⟨fun h => ⟨List.mem_cons_of_mem _ h.1, h.2⟩, fun h => ⟨?_, h.2⟩⟩ rfl rfl
    exact (List.mem_cons.1 h.1).resolve_left hu

theorem pullWall_eq (now : Nat) (move : Int) (hl : s.links.Lists .sleepq (l ++ m)) (hk : s.links.Lists .moved k)
    (hd : ∀ a ∈ k, a ∉ l ++ m) (hn : m.length ≤ n) : ∃ links' : Heap Root Nat,
      pullWall now move n s (place .moved k) (place .sleepq l) =
        { s with thread := moveWall s.thread now move m, links := links' } ∧
      links'.Lists .sleepq (l ++ m.filter fun a => !(s.thread a).timerWall) ∧
      links'.Lists .moved (k ++ m.filter fun a => (s.thread a).timerWall) := by
  induction m generalizing s l k n with
  | nil =>
    have hg : s.links.get (place .sleepq l) = none := (List.append_nil l ▸ hl).get_end
    have hsame : moveWall s.thread now move [] = s.thread := funext fun t => if_neg fun h => by cases h.1
    refine ⟨s.links, ?_, hl, by rwa [List.filter_nil, List.append_nil]⟩
    rw [hsame]
    cases n with
    | zero => rfl
    | succ n => simp only [pullWall, hg]
  | cons t m ih =>
    obtain ⟨n, rfl⟩ : ∃ j, n = j + 1 := Nat.exists_eq_succ_of_ne_zero (by rw [List.length_cons] at hn; omega)
    have hn' : m.length ≤ n := by rw [List.length_cons] at hn; omega
    have hg := hl.get_cons
    have hnd := hl.nodup
    have htl : t ∉ l := fun h => List.disjoint_of_nodup_append hnd h (List.mem_cons_self ..)
    have htm : t ∉ m := (List.nodup_cons.1 (List.nodup_append.1 hnd).2.1).1
    have htk : t ∉ k := fun h => hd t h (List.mem_append_right _ (List.mem_cons_self ..))
    rw [pullWall, hg]
    dsimp only
    rcases Bool.eq_false_or_eq_true (s.thread t).timerWall with hw | hw
    · rw [if_neg (by rw [hw]; decide)]
      -- the node leaves its place, ends its own list, and goes on the other one
      have hne : ∀ u ∈ m, u ≠ t := fun u hu he => htm (he ▸ hu)
      set h' := ((s.links.put (place .sleepq l) (s.links.next t)).put (.next t) none).put (place .moved k) (some t) with hh'
      have hl' : h'.Lists .sleepq (l ++ m) := by
        refine (Heap.Lists.stray hl.cut fun hm => ?_).other (by decide) fun a ha hak => ?_
        · rcases List.mem_append.1 hm with hm | hm
          · exact htl hm
          · exact htm hm
        · refine hd a hak ?_
          rcases List.mem_append.1 ha with ha | ha
          · exact List.mem_append_left _ ha
          · exact List.mem_append_right _ (List.mem_cons_of_mem _ ha)
      have hkl : ((s.links.put (place .sleepq l) (s.links.next t)).put (.next t) none).Lists .moved k :=
        (hk.other (by decide) fun a ha hal => hd a ha (List.mem_append_left _ hal)).stray htk
      have hk' : h'.Lists .moved (k ++ [t]) := hkl.concat htk Heap.next_put_self
      have hd' : ∀ a ∈ k ++ [t], a ∉ l ++ m := by
        intro a ha hm
        rcases List.mem_append.1 ha with ha | ha
        · refine hd a ha ?_
          rcases List.mem_append.1 hm with hm | hm
          · exact List.mem_append_left _ hm
          · exact List.mem_append_right _ (List.mem_cons_of_mem _ hm)
        · rw [List.mem_singleton.1 ha] at hm
          rcases List.mem_append.1 hm with hm | hm
          · exact htl hm
          · exact htm hm
      obtain ⟨links', h1, h2, h3⟩ := ih (s := { s with
        thread := Function.update s.thread t ((s.thread t).move now move), links := h' }) hl' hk' hd' hn'
      have hwall : ∀ u ∈ m, (Function.update s.thread t ((s.thread t).move now move) u).timerWall = (s.thread u).timerWall :=
        fun u hu => by rw [Function.update_of_ne (hne u hu)]
      rw [place_append_singleton] at h1
      refine ⟨links', ?_, ?_, ?_⟩
      · refine h1.trans ?_
        rw [moveWall_cons hw htm]
      · rw [List.filter_cons_of_neg (by rw [hw]; decide)]
        rwa [List.filter_congr fun u hu => congrArg (!·) (hwall u hu)] at h2
      · rw [List.filter_cons_of_pos (by exact hw)]
        rwa [List.append_assoc, List.filter_congr hwall] at h3
    · rw [if_pos hw]
      have hl' : s.links.Lists .sleepq (l ++ [t] ++ m) := by rwa [List.append_assoc]
      obtain ⟨links', h1, h2, h3⟩ := ih hl' hk (by rwa [List.append_assoc]) hn'
      have hsame : moveWall s.thread now move m = moveWall s.thread now move (t :: m) := by
        funext u
        unfold moveWall
        refine if_congr ⟨fun h => ⟨List.mem_cons_of_mem _ h.1, h.2⟩, fun h => ⟨?_, h.2⟩⟩ rfl rfl
        rcases List.mem_cons.1 h.1 with rfl | hu
        · rw [hw] at h
          cases h.2
        · exact hu
      rw [place_append_singleton] at h1
      rw [List.append_assoc] at h2
      refine ⟨links', by rw [h1, hsame], ?_, ?_⟩
      · rwa [List.filter_cons_of_pos (by rw [hw]; rfl)]
      · rwa [List.filter_cons_of_neg (by rw [hw]; exact Bool.false_ne_true)]

theorem mergeWall_none {pp : Link Root Nat} (h : s.links.root .moved = none) : mergeWall n s pp = s := by
  cases n with
  | zero => rfl
  | succ n => simp only [mergeWall, h]

theorem mergeWall_eq (hl : s.links.Lists .sleepq (l ++ m)) (hk : s.links.Lists .moved k) (hd : ∀ a ∈ k, a ∉ l ++ m)
    (hn : k.length ≤ n) (hc : m.length + k.length ≤ s.count) (hon : ∀ a ∈ k, (s.thread a).onTimer = true)
    (hsh : ∀ a ∈ k, (s.thread a).shifted = true) (hks : k.Pairwise fun a b => (s.thread a).deadline ≤ (s.thread b).deadline)
    (hs : (l ++ m).Pairwise (Before s.thread)) (hle : ∀ a ∈ l, ∀ b ∈ k, (s.thread a).deadline ≤ (s.thread b).deadline) :
    ∃ (links' : Heap Root Nat) (l' : List Nat), mergeWall n s (place .sleepq l) = { s with links := links' } ∧
      links'.Lists .sleepq l' ∧ links'.root .moved = none ∧ l'.Perm (l ++ m ++ k) ∧ l'.Pairwise (Before s.thread) := by
  induction k generalizing s l m n with
  | nil =>
    have hroot : s.links.root .moved = none := hk
    exact ⟨s.links, l ++ m, mergeWall_none hroot, hl, hroot, by rw [List.append_nil], hs⟩
  | cons t k ih =>
    obtain ⟨n, rfl⟩ : ∃ j, n = j + 1 := Nat.exists_eq_succ_of_ne_zero (by rw [List.length_cons] at hn; omega)
    rw [List.length_cons] at hn hc
    have hroot : s.links.root .moved = some t := hk.1
    have htk : t ∉ k := (List.nodup_cons.1 hk.nodup).1
    have htlm : t ∉ l ++ m := hd t (List.mem_cons_self ..)
    set s1 : State := { s with links := s.links.put (.root .moved) (s.links.next t) } with hs1
    have hl1 : s1.links.Lists .sleepq (l ++ m) := hl.frame (by rintro ⟨⟩) fun a _ => by rintro ⟨⟩
    have hk1 : s1.links.Lists .moved k := Heap.Lists.cut (l := []) hk
    obtain ⟨links1, h1, h2, h3⟩ := sleepqInsertFrom_eq hl1 htlm (by show m.length ≤ s.count; omega)
    have hself : ({ s.thread t with onTimer := true } : Thread) = s.thread t := by
      rw [← hon t (List.mem_cons_self ..)]
    set pass : Nat → Bool := fun a => (s1.thread a).deadline ≤ (s1.thread t).deadline with hpass
    have h1' : s1.sleepqInsertFrom (place .sleepq l) t =
        ({ s with links := links1 }, place .sleepq (l ++ m.takeWhile pass ++ [t])) := by
      rw [h1, hs1]
      dsimp only
      rw [hself, Function.update_eq_self]
    have hsplit : m.takeWhile pass ++ m.dropWhile pass = m := List.takeWhile_append_dropWhile
    have hperm : (l ++ m.takeWhile pass ++ [t] ++ m.dropWhile pass).Perm (l ++ m ++ [t]) := by
      nth_rewrite 3 [← hsplit]
      simp only [List.append_assoc]
      refine List.Perm.append_left _ (List.Perm.append_left _ ?_)
      exact List.perm_append_comm
    have hmem : ∀ a, a ∈ l ++ m.takeWhile pass ++ [t] ++ m.dropWhile pass → a ∈ l ++ m ∨ a = t := by
      intro a ha
      rcases List.mem_append.1 (hperm.mem_iff.1 ha) with ha | ha
      · exact .inl ha
      · exact .inr (List.mem_singleton.1 ha)
    have htle : ∀ b ∈ k, (s.thread t).deadline ≤ (s.thread b).deadline := (List.pairwise_cons.1 hks).1
    have hins : (l ++ m.takeWhile pass ++ t :: m.dropWhile pass).Pairwise (Before s.thread) := by
      refine Before.insert hs (fun a ha => hle a ha t (List.mem_cons_self ..)) fun a _ _ hf => ?_
      rw [hsh t (List.mem_cons_self ..)] at hf
      cases hf
    rw [List.append_cons] at hins h2
    obtain ⟨links', l', g1, g2, g3, g4, g5⟩ := ih (s := { s with links := links1 })
      (l := l ++ m.takeWhile pass ++ [t]) (m := m.dropWhile pass) (n := n) h2
      (h3 k hk1 fun a ha => ⟨fun he => htk (he ▸ ha), hd a (List.mem_cons_of_mem _ ha)⟩)
      (fun a ha hm => by
        rcases hmem a hm with hm | rfl
        · exact hd a (List.mem_cons_of_mem _ ha) hm
        · exact htk ha)
      (by omega)
      (by
        have := (List.dropWhile_sublist pass (l := m)).length_le
        show (m.dropWhile pass).length + k.length ≤ s.count
        omega)
      (fun a ha => hon a (List.mem_cons_of_mem _ ha)) (fun a ha => hsh a (List.mem_cons_of_mem _ ha))
      (List.pairwise_cons.1 hks).2 hins
      (fun a ha b hb => by
        rcases List.mem_append.1 ha with ha | ha
        · rcases List.mem_append.1 ha with ha | ha
          · exact hle a ha b (List.mem_cons_of_mem _ hb)
          · have hp : pass a = true := List.mem_takeWhile_imp ha
            exact (of_decide_eq_true hp : (s.thread a).deadline ≤ (s.thread t).deadline).trans (htle b hb)
        · rw [List.mem_singleton.1 ha]
          exact htle b hb)
    refine ⟨links', l', ?_, g2, g3, g4.trans ?_, g5⟩
    · rw [mergeWall, hroot]
      dsimp only
      rw [← hs1, h1']
      exact g1
    · refine (hperm.append_right k).trans ?_
      rw [List.append_assoc (l ++ m), List.singleton_append]

theorem Queue.wallShift (h : Queue s l) (hm : move ≠ 0) (core : Nat) (tick : Option Nat) :
    ∃ (links' : Heap Root Nat) (l' : List Nat),
      Queue { s with thread := moveWall s.thread s.now move l, links := links' } l' ∧
      Quiet { s with thread := moveWall s.thread s.now move l, links := links' } (s.ktimeWallShift core move tick) := by
  obtain ⟨links1, h1, h2, h3⟩ := pullWall_eq s.now move (l := []) (k := []) h.lists h.moved
    (fun a ha => by cases ha) h.length_le
  set f := moveWall s.thread s.now move l with hf
  have hft : ∀ t, (f t).onTimer = (s.thread t).onTimer ∧ (f t).state = (s.thread t).state ∧
      (f t).arrived = (s.thread t).arrived := by
    intro t
    rcases moveWall_cases s.thread s.now move l t with ⟨-, -, h⟩ | ⟨-, h⟩ <;> rw [hf, h]
    · exact ⟨Thread.move_onTimer .., Thread.move_state .., Thread.move_arrived ..⟩
    · exact ⟨rfl, rfl, rfl⟩
  have hstay : ∀ t ∈ l.filter (fun a => !(s.thread a).timerWall), f t = s.thread t := by
    intro t ht
    have hw := (List.mem_filter.1 ht).2
    refine if_neg fun hc => ?_
    rw [hc.2] at hw
    cases hw
  have hgo : ∀ t ∈ l.filter (fun a => (s.thread a).timerWall), f t = (s.thread t).move s.now move := by
    intro t ht
    exact if_pos (List.mem_filter.1 ht)
  have hle : l.Pairwise fun a b => (s.thread a).deadline ≤ (s.thread b).deadline := h.sorted.imp fun h => h.1
  have hfill : (l.filter (fun a => !(s.thread a).timerWall) ++ l.filter (fun a => (s.thread a).timerWall)).Perm l := by
    refine List.perm_append_comm.trans ?_
    exact List.filter_append_perm (fun a => (s.thread a).timerWall) l
  have hlen := hfill.length_eq
  rw [List.length_append] at hlen
  have hcount := h.length_le
  obtain ⟨links', l', g1, g2, g3, g4, g5⟩ := mergeWall_eq (n := s.count) (s := { s with thread := f, links := links1 })
    (l := []) h2 h3
    (fun a ha hm => by
      have hw := (List.mem_filter.1 ha).2
      have hw' := (List.mem_filter.1 hm).2
      rw [hw] at hw'
      cases hw')
    (by show (l.filter _).length ≤ s.count; omega) (by show (l.filter _).length + (l.filter _).length ≤ s.count; omega)
    (fun a ha => by
      show (f a).onTimer = true
      rw [(hft a).1]
      exact (h.mem a).1 (List.mem_filter.1 ha).1)
    (fun a ha => by
      show (f a).shifted = true
      rw [hgo a ha, Thread.move_shifted])
    ((hle.filter _).imp_of_mem fun {a b} ha hb hab => by
      show (f a).deadline ≤ (f b).deadline
      rw [hgo a ha, hgo b hb, Thread.move_deadline, Thread.move_deadline]
      exact floored_mono (shifted_mono hab move) s.now)
    (Before.congr (h.sorted.filter _) fun a ha => by
      show (f a).deadline = _ ∧ (f a).shifted = _ ∧ (f a).arrived = _
      rw [hstay a ha]
      exact ⟨rfl, rfl, rfl⟩)
    (fun a ha => by cases ha)
  have hperm : l'.Perm l := g4.trans hfill
  have hq : Queue { s with thread := f, links := links' } l' := by
    refine ⟨g2, g3, g5, fun t => ?_, fun t ht => ?_, fun t ht => ?_, fun t ht => ?_⟩
    · rw [hperm.mem_iff, h.mem]
      show _ ↔ (f t).onTimer = true
      rw [(hft t).1]
    · show (f t).state = _
      rw [(hft t).2.1]
      exact h.blocked t (hperm.mem_iff.1 ht)
    · exact h.small t (hperm.mem_iff.1 ht)
    · show (f t).arrived < _
      rw [(hft t).2.2]
      exact h.arrived t (hperm.mem_iff.1 ht)
  rw [place_nil, place_nil] at h1
  unfold ktimeWallShift
  rw [if_neg hm]
  dsimp only
  rw [h1]
  split_ifs with hnone
  · -- nothing was marked: there is nothing for the second loop
    rw [place_nil, mergeWall_none hnone] at g1
    exact ⟨links', l', hq, by rw [← g1]; exact .refl _⟩
  · rw [place_nil] at g1
    exact ⟨links', l', hq, by rw [g1]; exact ktimeRearm_quiet _ core (s.current core) tick⟩

end State

end Time
end KickOS
