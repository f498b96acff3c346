import KickOS.Slot.Model

/-! What a claim answers and which handles resolve, after every history of a pool.

The claims walk the fresh slots and then the released ones; the free list holds what they have not reached yet. The generation of
a slot counts its releases. -/

namespace KickOS.Slot

open Lib

section Codec

variable {g : BitVec 16} {i : BitVec 32}

theorem testBit_high {n j : Nat} (hn : n < 2 ^ 16) (hj : 16 ≤ j) : n.testBit j = false :=
  Nat.testBit_lt_two_pow (hn.trans_le (Nat.pow_le_pow_right Nat.two_pos hj))

theorem handleIndex_pack (hi : i.toNat < 2 ^ 16) : handleIndex (handlePack g i) = i := by
  have hm : (0xffff#32) = BitVec.ofNat 32 (2 ^ 16 - 1) := rfl
  have hij : ∀ j, 16 ≤ j → i.getLsbD j = false := fun j hj => testBit_high hi hj
  refine BitVec.eq_of_getLsbD_eq fun j hj => ?_
  unfold handleIndex handlePack
  rw [hm]
  simp only [BitVec.getLsbD_and, BitVec.getLsbD_or, BitVec.getLsbD_shiftLeft, BitVec.getLsbD_ofNat, Nat.testBit_two_pow_sub_one]
  rcases Nat.lt_or_ge j 16 with h | h
  · simp [h, hj]
  · simp [hij j h, Nat.not_lt.2 h]

theorem handleGen_pack (hi : i.toNat < 2 ^ 16) : handleGen (handlePack g i) = g := by
  refine BitVec.eq_of_getLsbD_eq fun j hj => ?_
  have hij : i.getLsbD (16 + j) = false := testBit_high hi (Nat.le_add_right ..)
  have h1 : 16 + j < 32 := by omega
  unfold handleGen handlePack
  rw [BitVec.getLsbD_setWidth, BitVec.getLsbD_ushiftRight, BitVec.getLsbD_or, hij, Bool.or_false, BitVec.getLsbD_shiftLeft]
  simp [hj, h1, hj.trans (show 16 < 32 by decide)]

theorem handleIndex_allOnes : (handleIndex (BitVec.allOnes 32)).toNat = 0xffff := by decide

end Codec

/-- The claims so far are the slots below `fresh` and then `popped`, the releases `popped` and then the free list. -/
structure History (a : SlotArrays) (s : St) (popped free : List Nat) : Prop where
  fresh_le : s.pool.fresh.toNat ≤ a.count
  lists : s.pool.free.Lists free
  claimed : s.claimed = List.range s.pool.fresh.toNat ++ popped
  released : s.released = popped ++ free
  drained : popped ≠ [] → s.pool.fresh.toNat = a.count
  below : ∀ i ∈ s.released, i < s.pool.fresh.toNat
  gen : ∀ i, s.pool.gen i = BitVec.ofNat 32 (s.released.count i)

section Steps

variable {a : SlotArrays} {s : St} {popped free : List Nat}

theorem history_init (a : SlotArrays) : History a {} [] [] where
  fresh_le := Nat.zero_le _
  lists := TailList.lists_empty
  claimed := rfl
  released := rfl
  drained h := absurd rfl h
  below _ h := absurd h List.not_mem_nil
  gen _ := rfl

theorem fresh_succ {a : SlotArrays} {f : BitVec 16} (hf : f.toNat < a.count) : (f + 1).toNat = f.toNat + 1 := by
  have hn := a.narrow
  have hb : f.toNat + 1 < 2 ^ 16 := by omega
  rw [BitVec.toNat_add]
  exact Nat.mod_eq_of_lt hb

theorem History.claim (h : History a s popped free) :
    (s.pool.fresh.toNat < a.count ∧
      slotClaim a s.pool true = ({ s.pool with fresh := s.pool.fresh + 1 }, (s.pool.fresh.toNat : Int))) ∨
    (s.pool.fresh.toNat = a.count ∧ free = [] ∧ slotClaim a s.pool true = (s.pool, -1)) ∨
    ∃ n rest f, s.pool.fresh.toNat = a.count ∧ free = n :: rest ∧ f.Lists rest ∧
      slotClaim a s.pool true = ({ s.pool with free := f }, (n : Int)) := by
  unfold slotClaim
  rw [if_neg Bool.true_eq_false_eq_False]
  rcases h.fresh_le.lt_or_eq with hlt | heq
  · exact .inl ⟨hlt, if_pos hlt⟩
  · rw [if_neg (heq ▸ lt_irrefl _)]
    have hl := h.lists
    cases free with
    | nil =>
      rw [hl.popFront_nil]
      exact .inr (.inl ⟨heq, rfl, rfl⟩)
    | cons n rest =>
      obtain ⟨f, hp, hf⟩ := hl.popFront_cons
      rw [hp]
      exact .inr (.inr ⟨n, rest, f, heq, rfl, hf, rfl⟩)

theorem History.live_iff (h : History a s popped free) {i : Nat} : s.Live i ↔ i < s.pool.fresh.toNat ∧ i ∉ free := by
  have hq : free.count i ≤ 1 := List.nodup_iff_count_le_one.1 h.lists.nodup i
  have hm : i ∈ free → i < s.pool.fresh.toNat := fun hi => h.below i (h.released ▸ List.mem_append_right _ hi)
  unfold St.Live
  rw [h.claimed, h.released, List.count_append, List.count_append, List.count_range]
  rcases em (i ∈ free) with hi | hi
  · have h1 : 0 < free.count i := List.count_pos_iff.2 hi
    have h2 := hm hi
    simp only [hi, not_true_eq_false, and_false, iff_false, if_pos h2]
    omega
  · have h1 : free.count i = 0 := List.count_eq_zero.2 hi
    rw [h1, Nat.add_zero]
    simp only [hi, not_false_eq_true, and_true]
    split_ifs with h2 <;> simp [h2]

theorem History.slotLive_iff (h : History a s popped free) {i : BitVec 32} : slotLive s.pool i = true ↔ s.Live i.toNat := by
  unfold slotLive
  rw [Bool.and_eq_true, decide_eq_true_iff, Bool.not_eq_true', h.live_iff, ← h.lists.holds_iff, Bool.not_eq_true]

theorem History.step (h : History a s popped free) (op : Op) : ∃ popped' free', History a (s.step a op) popped' free' := by
  cases op with
  | claim admitted =>
    cases admitted with
    | false => exact ⟨popped, free, h⟩
    | true =>
      dsimp only [St.step]
      rcases h.claim with ⟨hlt, he⟩ | ⟨hc, hf, he⟩ | ⟨n, rest, f, hc, rfl, hl, he⟩
      · rw [he]
        have hp : popped = [] := by
          by_contra hp
          exact absurd (h.drained hp) hlt.ne
        have hs := fresh_succ hlt
        refine ⟨popped, free, ⟨hs.trans_le hlt, h.lists, ?_, h.released, fun hn => absurd hp hn, fun i hi => ?_, h.gen⟩⟩
        · dsimp only
          rw [if_pos (Int.natCast_nonneg _), Int.toNat_natCast, hs, List.range_succ, h.claimed, hp, List.append_nil,
            List.append_nil]
        · exact (h.below i hi).trans_le (hs ▸ Nat.le_succ _)
      · rw [he]
        exact ⟨popped, free, h.fresh_le, h.lists, h.claimed, h.released, h.drained, h.below, h.gen⟩
      · rw [he]
        refine ⟨popped ++ [n], rest, h.fresh_le, hl, ?_, ?_, fun _ => hc, h.below, h.gen⟩
        · dsimp only
          rw [if_pos (Int.natCast_nonneg _), Int.toNat_natCast, h.claimed, List.append_assoc]
        · rw [List.append_assoc]
          exact h.released
  | release handle =>
    dsimp only [St.step, slotRelease]
    cases hv : slotLive s.pool (handleIndex handle) with
    | false => exact ⟨popped, free, h.fresh_le, h.lists, h.claimed, h.released, h.drained, h.below, h.gen⟩
    | true =>
      obtain ⟨hlt, hn⟩ := h.live_iff.1 (h.slotLive_iff.1 hv)
      generalize (handleIndex handle).toNat = n at hlt hn ⊢
      rw [if_pos rfl, if_pos rfl]
      refine ⟨popped, free ++ [n], h.fresh_le, h.lists.pushBack hn, h.claimed, ?_, h.drained, fun i hi => ?_, fun i => ?_⟩
      · dsimp only
        rw [h.released, List.append_assoc]
      · rcases List.mem_append.1 hi with hi | hi
        · exact h.below i hi
        · rw [List.mem_singleton.1 hi]
          exact hlt
      · dsimp only
        rw [List.count_append]
        rcases eq_or_ne i n with rfl | hne
        · rw [Function.update_self, h.gen, List.count_singleton_self]
          exact (BitVec.ofNat_add ..).symm
        · rw [Function.update_of_ne hne, h.gen, List.count_singleton, if_neg (by simpa using hne.symm), Nat.add_zero]

theorem History.run (h : History a s popped free) (ops : List Op) : ∃ popped' free', History a (s.run a ops) popped' free' := by
  induction ops generalizing s popped free with
  | nil => exact ⟨popped, free, h⟩
  | cons op ops ih =>
    obtain ⟨p, f, h'⟩ := h.step op
    exact ih h'

/-- Of the generations only the low halves meet: the releases of a slot differ by whole turns of them. -/
theorem low_half_eq_iff {m n : Nat} (h : m ≤ n) :
    (BitVec.ofNat 32 n).setWidth 16 = (BitVec.ofNat 32 m).setWidth 16 ↔ 65536 ∣ n - m := by
  have hw : (65536 : Nat) = 2 ^ 16 := rfl
  rw [BitVec.setWidth_ofNat_of_le (by decide), BitVec.setWidth_ofNat_of_le (by decide), ← BitVec.toNat_inj, BitVec.toNat_ofNat,
    BitVec.toNat_ofNat, ← hw, eq_comm]
  exact Nat.modEq_iff_dvd' h

theorem count_step_le (a : SlotArrays) (s : St) (op : Op) (i : Nat) : s.released.count i ≤ (s.step a op).released.count i := by
  cases op with
  | claim admitted => exact le_rfl
  | release handle =>
    dsimp only [St.step]
    split_ifs
    · rw [List.count_append]
      exact Nat.le_add_right ..
    · exact le_rfl

theorem count_run_le (a : SlotArrays) (s : St) (ops : List Op) (i : Nat) :
    s.released.count i ≤ (s.run a ops).released.count i := by
  induction ops generalizing s with
  | nil => exact le_rfl
  | cons op ops ih => exact (count_step_le a s op i).trans (ih (s.step a op))

/-- A handle made for a slot resolves to it where the slot is live and has the same low half of a generation. -/
theorem History.slotLiveIndex_handleFor {s' : St} {popped' free' : List Nat} (h : History a s popped free)
    (h' : History a s' popped' free') {i : BitVec 32} (hi : i.toNat < a.count)
      (hle : s.released.count i.toNat ≤ s'.released.count i.toNat) :
    slotLiveIndex s'.pool (handleFor a s.pool i) =
      if s'.Live i.toNat ∧ 65536 ∣ s'.released.count i.toNat - s.released.count i.toNat then (i.toNat : Int) else -1 := by
  have hb : i.toNat < 2 ^ 16 := hi.trans (a.narrow.trans (by decide))
  unfold slotLiveIndex handleFor
  rw [if_neg (Nat.not_le.2 hi), handleIndex_pack hb, handleGen_pack hb, h.gen]
  dsimp only
  rw [h'.gen, ← ite_not]
  refine if_congr ?_ rfl rfl
  rw [← low_half_eq_iff hle, ← h'.slotLive_iff, not_or, Bool.not_eq_false, ne_eq, not_not]

theorem History.slotLiveIndex_allOnes (h : History a s popped free) : slotLiveIndex s.pool (BitVec.allOnes 32) = -1 := by
  refine if_pos (.inl (Bool.eq_false_iff.2 fun hl => ?_))
  have hlt := (h.live_iff.1 (h.slotLive_iff.1 hl)).1
  rw [handleIndex_allOnes] at hlt
  exact absurd (hlt.trans_le (h.fresh_le.trans a.narrow.le)) (lt_irrefl _)

theorem History.claim_free (h : History a s popped free) {admitted : Bool} {n : Nat}
    (hn : (slotClaim a s.pool admitted).2 = n) : n < a.count ∧ ¬ s.Live n := by
  rw [h.live_iff]
  cases admitted with
  | false => exact absurd hn (by change (-2 : Int) ≠ n; omega)
  | true =>
    rcases h.claim with ⟨hlt, he⟩ | ⟨-, -, he⟩ | ⟨m, rest, f, hc, rfl, -, he⟩
    · rw [he] at hn
      obtain rfl := Int.ofNat.inj hn
      exact ⟨hlt, fun hl => lt_irrefl _ hl.1⟩
    · rw [he] at hn
      exact absurd hn (by change (-1 : Int) ≠ n; omega)
    · rw [he] at hn
      obtain rfl := Int.ofNat.inj hn
      refine ⟨hc ▸ h.below m ?_, fun hl => hl.2 (List.mem_cons_self ..)⟩
      rw [h.released]
      exact List.mem_append_right _ (List.mem_cons_self ..)

theorem History.claim_full (h : History a s popped free) :
    (slotClaim a s.pool true).2 = -1 ↔ ∀ n < a.count, s.Live n := by
  rcases h.claim with ⟨hlt, he⟩ | ⟨hc, rfl, he⟩ | ⟨m, rest, f, hc, rfl, -, he⟩
  · rw [he]
    constructor
    · intro hn
      exact absurd hn (by change ((_ : Nat) : Int) ≠ -1; omega)
    · intro hall
      exact absurd (h.live_iff.1 (hall _ hlt)).1 (lt_irrefl _)
  · rw [he]
    exact ⟨fun _ n hn => h.live_iff.2 ⟨hc ▸ hn, List.not_mem_nil⟩, fun _ => rfl⟩
  · rw [he]
    constructor
    · intro hn
      exact absurd hn (by change (m : Int) ≠ -1; omega)
    · intro hall
      have hm : m < a.count := hc ▸ h.below m (h.released ▸ List.mem_append_right _ (List.mem_cons_self ..))
      exact absurd (List.mem_cons_self ..) (h.live_iff.1 (hall m hm)).2

theorem History.claimed_prefix (h : History a s popped free) : s.claimed <+: List.range a.count ++ s.released := by
  rw [h.claimed, h.released]
  rcases eq_or_ne popped [] with rfl | hp
  · rw [List.append_nil]
    obtain ⟨k, hk⟩ := Nat.exists_eq_add_of_le h.fresh_le
    rw [hk, List.range_add, List.append_assoc]
    exact List.prefix_append ..
  · rw [h.drained hp, ← List.append_assoc]
    exact List.prefix_append ..

end Steps

/-- After every history: a claim answers no live slot, and a full pool exactly where every slot is live; the claims follow the
fresh slots and then the releases; and a handle resolves exactly where its slot is live and the releases since it was made are
whole turns of the generation it carries. -/
theorem handles_resolve (a : SlotArrays) (ops : List Op) :
    (∀ (admitted : Bool) (n : Nat), (slotClaim a (St.run a {} ops).pool admitted).2 = n →
      n < a.count ∧ ¬ (St.run a {} ops).Live n) ∧
    ((slotClaim a (St.run a {} ops).pool true).2 = -1 ↔ ∀ n < a.count, (St.run a {} ops).Live n) ∧
    (St.run a {} ops).claimed <+: List.range a.count ++ (St.run a {} ops).released ∧
    (∀ (later : List Op) (i : BitVec 32),
      slotLiveIndex ((St.run a {} ops).run a later).pool (handleFor a (St.run a {} ops).pool i) =
        if i.toNat < a.count ∧ ((St.run a {} ops).run a later).Live i.toNat ∧
          65536 ∣ ((St.run a {} ops).run a later).released.count i.toNat - (St.run a {} ops).released.count i.toNat
        then (i.toNat : Int) else -1) ∧
    ∀ (later : List Op) (i : BitVec 32),
      (St.run a {} ops).released.count i.toNat < ((St.run a {} ops).run a later).released.count i.toNat →
      ((St.run a {} ops).run a later).released.count i.toNat ≤ (St.run a {} ops).released.count i.toNat + 65535 →
      slotLiveIndex ((St.run a {} ops).run a later).pool (handleFor a (St.run a {} ops).pool i) = -1 := by
  obtain ⟨popped, free, h⟩ := (history_init a).run ops
  generalize St.run a {} ops = s at h ⊢
  have hres : ∀ (later : List Op) (i : BitVec 32), slotLiveIndex (s.run a later).pool (handleFor a s.pool i) =
      if i.toNat < a.count ∧ (s.run a later).Live i.toNat ∧
        65536 ∣ (s.run a later).released.count i.toNat - s.released.count i.toNat then (i.toNat : Int) else -1 := by
    intro later i
    obtain ⟨popped', free', h'⟩ := h.run later
    rcases Nat.lt_or_ge i.toNat a.count with hi | hi
    · rw [h.slotLiveIndex_handleFor h' hi (count_run_le a s later _)]
      exact if_congr (by rw [and_iff_right hi]) rfl rfl
    · rw [if_neg fun hn => absurd hn.1 (Nat.not_lt.2 hi), handleFor, if_pos hi]
      exact h'.slotLiveIndex_allOnes
  refine ⟨fun _ n => h.claim_free, h.claim_full, h.claimed_prefix, hres, fun later i h1 h2 => ?_⟩
  rw [hres]
  refine if_neg fun hn => ?_
  have hle := Nat.le_of_dvd (Nat.sub_pos_of_lt h1) hn.2.2
  omega

example : slotLiveIndex (St.run ⟨1, by decide⟩ {} [.claim true, .release 0, .claim true]).pool 0 = -1 := by decide

end KickOS.Slot
