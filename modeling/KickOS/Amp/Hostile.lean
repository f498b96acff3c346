import KickOS.Amp.Window

/-! A peer may answer every load with anything, and still the window of this node stands: its two runs stay inside the
rings, a call is answered at most once, and neither a token nor a hold reaches past its death. -/

namespace KickOS.Amp
open Function (update update_of_ne update_self)

/-! ### Positions -/

theorem toNat_and_three (x : BitVec 32) : (x &&& 3).toNat = x.toNat % 4 := by
  rw [BitVec.toNat_and]
  exact Nat.and_two_pow_sub_one_eq_mod x.toNat 2

variable {ib : Inbox} {p q : Pair}

theorem offOf_lt (ib : Inbox) (slot : Fin ringSlots) : ib.offOf slot < ringSlots := by
  rw [Inbox.offOf, toNat_and_three]
  exact Nat.mod_lt _ (by decide)

theorem slotOf_offOf (slot : Fin ringSlots) : slotOf (ib.tail + BitVec.ofNat 32 (ib.offOf slot)) = slot := by
  apply Fin.ext
  have hslot := slot.isLt
  have htail := ib.tail.isLt
  simp only [slotOf, Inbox.offOf, toNat_and_three, BitVec.toNat_add, BitVec.toNat_sub, BitVec.toNat_ofNat, ringSlots] at hslot ⊢
  omega

theorem toNat_outstanding_add (head taken tail : BitVec 32) :
    outstanding head tail = (outstanding head taken + outstanding taken tail) % 2 ^ 32 := by
  have h1 := head.isLt
  have h2 := taken.isLt
  have h3 := tail.isLt
  simp only [outstanding, BitVec.toNat_sub]
  omega

theorem held_lt {head : BitVec 32} (hheld : ib.held ≤ ringSlots) (hdeep : Pair.deepest ib head ≤ ringSlots)
    (hunread : outstanding head ib.taken ≠ 0) : ib.held < ringSlots := by
  obtain ⟨h1, h2⟩ := max_le_iff.mp hdeep
  have hsum := toNat_outstanding_add head ib.taken ib.tail
  simp only [Inbox.held, ringSlots] at *
  omega

/-! ### The run of a ring -/

/-- The run lies in the ring, only slots of it are released, and all of them were taken since the last resynchronisation. -/
structure Inbox.Ok (ib : Inbox) : Prop where
  held : ib.held ≤ ringSlots
  bits : ∀ k, ib.released.getLsbD k = true → k < ib.held
  takenAt : ∀ k < ib.held, ib.takenAt (ib.tail + BitVec.ofNat 32 k) = ib.resyncs

theorem passReleased_eq (taken : BitVec 32) : ∀ (n : Nat) (tail released : BitVec 32),
    ∃ m ≤ n, passReleased n taken tail released = (tail + BitVec.ofNat 32 m, released >>> m)
  | 0, tail, released => ⟨0, le_rfl, by simp [passReleased]⟩
  | n + 1, tail, released => by
    rw [passReleased]
    split
    · obtain ⟨m, hm, h⟩ := passReleased_eq taken n (tail + 1) (released >>> 1)
      refine ⟨m + 1, Nat.succ_le_succ hm, ?_⟩
      rw [h, ← BitVec.shiftRight_add, Nat.add_comm 1 m, BitVec.ofNat_add, BitVec.add_assoc, BitVec.add_comm 1]
      rfl
    · exact ⟨0, Nat.zero_le _, by simp⟩

theorem free_eq (ib : Inbox) (off : Nat) :
    ∃ m ≤ ib.held, ib.free off =
      { ib with tail := ib.tail + BitVec.ofNat 32 m, released := (ib.released ||| (1#32 <<< off)) >>> m } := by
  obtain ⟨m, hm, h⟩ := passReleased_eq ib.taken ib.held ib.tail (ib.released ||| (1#32 <<< off))
  refine ⟨m, hm, ?_⟩
  rw [Inbox.free, h]

theorem held_advance {m : Nat} (hm : m ≤ ib.held) (released : BitVec 32) :
    ({ ib with tail := ib.tail + BitVec.ofNat 32 m, released := released } : Inbox).held = ib.held - m := by
  have h1 := ib.taken.isLt
  have h2 := ib.tail.isLt
  simp only [Inbox.held, outstanding, BitVec.toNat_sub, BitVec.toNat_add, BitVec.toNat_ofNat] at hm ⊢
  omega

theorem getLsbD_mark {released : BitVec 32} {off k : Nat} (h : (released ||| (1#32 <<< off)).getLsbD k = true) :
    released.getLsbD k = true ∨ k = off := by
  rw [BitVec.getLsbD_or, Bool.or_eq_true, BitVec.getLsbD_shiftLeft] at h
  refine h.imp_right fun h => ?_
  simp only [Bool.and_eq_true, Bool.not_eq_true', decide_eq_true_eq, decide_eq_false_iff_not, BitVec.getLsbD_one] at h
  omega

theorem Inbox.Ok.free (h : ib.Ok) {off : Nat} (hoff : off < ib.held) : (ib.free off).Ok := by
  obtain ⟨m, hm, heq⟩ := free_eq ib off
  have hheld := held_advance hm ((ib.released ||| (1#32 <<< off)) >>> m)
  rw [heq]
  refine ⟨?_, ?_, ?_⟩
  · rw [hheld]
    exact (Nat.sub_le _ _).trans h.held
  · intro k hk
    rw [hheld]
    rw [BitVec.getLsbD_ushiftRight] at hk
    obtain hk | rfl := getLsbD_mark hk
    · have := h.bits _ hk
      omega
    · omega
  · intro k hk
    rw [hheld] at hk
    have hpos := h.takenAt (m + k) (by omega)
    rwa [BitVec.ofNat_add, ← BitVec.add_assoc] at hpos

/-- A slot of the run that is not released after a release was not released before it, and is another slot. -/
theorem free_position {off k : Nat} (hoff : off < 32) (hk : k < (ib.free off).held)
    (hbit : (ib.free off).released.getLsbD k = false) : ∃ j < ib.held, ib.released.getLsbD j = false ∧ j ≠ off ∧
    (ib.free off).tail + BitVec.ofNat 32 k = ib.tail + BitVec.ofNat 32 j := by
  obtain ⟨m, hm, heq⟩ := free_eq ib off
  have hheld := held_advance hm ((ib.released ||| (1#32 <<< off)) >>> m)
  rw [heq] at hk hbit ⊢
  rw [hheld] at hk
  rw [BitVec.getLsbD_ushiftRight, BitVec.getLsbD_or, Bool.or_eq_false_iff] at hbit
  refine ⟨m + k, by omega, hbit.1, ?_, ?_⟩
  · intro hj
    have h := hbit.2
    rw [hj] at h
    simp [hoff] at h
  · rw [BitVec.ofNat_add, BitVec.add_assoc]

theorem held_take (hlt : ib.held < ringSlots) : ib.take.held = ib.held + 1 := by
  have h1 := ib.taken.isLt
  have h2 := ib.tail.isLt
  have hone : (1 : BitVec 32).toNat = 1 := rfl
  simp only [Inbox.held, Inbox.take, outstanding, BitVec.toNat_sub, BitVec.toNat_add, hone, ringSlots] at hlt ⊢
  omega

theorem tail_add_held : ib.tail + BitVec.ofNat 32 ib.held = ib.taken := by
  rw [Inbox.held, outstanding, BitVec.ofNat_toNat, BitVec.setWidth_eq, BitVec.add_comm, BitVec.sub_add_cancel]

theorem position_ne_taken {k : Nat} (hk : k < ib.held) : ib.tail + BitVec.ofNat 32 k ≠ ib.taken := by
  intro h
  rw [← tail_add_held] at h
  have hlt : ib.held < 2 ^ 32 := BitVec.isLt _
  have h' := congrArg BitVec.toNat ((BitVec.add_right_inj _).mp h)
  rw [BitVec.toNat_ofNat, BitVec.toNat_ofNat, Nat.mod_eq_of_lt hlt, Nat.mod_eq_of_lt (hk.trans hlt)] at h'
  omega

theorem Inbox.Ok.take (h : ib.Ok) (hlt : ib.held < ringSlots) : ib.take.Ok := by
  refine ⟨?_, ?_, ?_⟩
  · rw [held_take hlt]
    exact hlt
  · intro k hk
    rw [held_take hlt]
    exact (h.bits k hk).trans (Nat.lt_succ_self _)
  · intro k hk
    rw [held_take hlt] at hk
    obtain rfl | hk := Nat.eq_or_lt_of_le (Nat.le_of_lt_succ hk)
    · rw [show ib.take.tail = ib.tail from rfl, tail_add_held]
      exact update_self ..
    · exact (update_of_ne (position_ne_taken hk) ..).trans (h.takenAt k hk)

theorem ok_resync (head : BitVec 32) : (Pair.resync ib head).Ok := by
  have hheld : (Pair.resync ib head).held = 0 := by simp [Pair.resync, Inbox.held, outstanding]
  refine ⟨by simp [hheld], by simp [Pair.resync], by simp [hheld]⟩

/-! ### The pair -/

namespace Pair

/-- What holds between any two steps of an operation. -/
structure Kept (p : Pair) : Prop where
  call : p.call.Ok
  reply : p.reply.Ok
  replyGen : p.replyGen = BitVec.ofNat 16 p.reply.resyncs
  gen : ∀ i, (p.records i).gen = BitVec.ofNat 32 (p.records i).deaths
  pending : ∀ i, (p.records i).pending ≠ .none → (p.records i).live = true
  calls : ∀ i, (p.records i).live = true → (p.records i).call < p.calls ∧ (p.records i).call ∉ p.log.answered
  apart : ∀ i j, (p.records i).live = true → (p.records j).live = true → (p.records i).call = (p.records j).call → i = j
  answered : p.log.answered.Nodup ∧ ∀ c ∈ p.log.answered, c < p.calls
  uses : ∀ u ∈ p.log.uses, u.1 < ringSlots ∧ u.2 ≤ slotBytes
  tokens : ∀ t ∈ p.log.tokens, t.gen = BitVec.ofNat 16 t.deaths
  holds : ∀ h ∈ p.log.holds, h.gen = BitVec.ofNat 16 h.takenAt ∧ h.takenAt ≤ p.reply.resyncs
  releases : ∀ r ∈ p.log.releases, r.holder ≤ r.slot ∧ (r.slot < r.holder + 2 ^ 16 → r.holder = r.slot)

/-- The record that stands at a slot of the run still held took this slot, not one of an earlier run. -/
def OwnedAt (p : Pair) (k : Nat) : Prop :=
  p.call.released.getLsbD k = false → (p.records (slotOf (p.call.tail + BitVec.ofNat 32 k))).live = true →
    (p.records (slotOf (p.call.tail + BitVec.ofNat 32 k))).takenAt = p.call.resyncs

structure Inv (p : Pair) : Prop extends Kept p where
  owned : ∀ k < p.call.held, p.OwnedAt k

/-- Nothing changed but what the node sends and the slots it used. -/
structure Frame (p q : Pair) : Prop where
  call : q.call = p.call
  reply : q.reply = p.reply
  replyGen : q.replyGen = p.replyGen
  records : q.records = p.records
  calls : q.calls = p.calls
  log : ∃ uses, q.log = { p.log with uses := uses } ∧ ∀ u ∈ uses, u ∈ p.log.uses ∨ u.1 < ringSlots ∧ u.2 ≤ slotBytes

namespace Frame

theorem refl : Frame p p := ⟨rfl, rfl, rfl, rfl, rfl, p.log.uses, rfl, fun _ => .inl⟩

theorem trans {r : Pair} (h : Frame p q) (h' : Frame q r) : Frame p r := by
  obtain ⟨uses, hlog, huses⟩ := h.log
  obtain ⟨uses', hlog', huses'⟩ := h'.log
  refine ⟨h'.call.trans h.call, h'.reply.trans h.reply, h'.replyGen.trans h.replyGen, h'.records.trans h.records,
    h'.calls.trans h.calls, uses', by rw [hlog', hlog], fun u hu => ?_⟩
  obtain hu | hu := huses' u hu
  · rw [hlog] at hu
    exact huses u hu
  · exact .inr hu

theorem kept (h : Frame p q) (hp : p.Kept) : q.Kept := by
  obtain ⟨uses, hlog, huses⟩ := h.log
  have hanswered : q.log.answered = p.log.answered := by rw [hlog]
  have htokens : q.log.tokens = p.log.tokens := by rw [hlog]
  have hholds : q.log.holds = p.log.holds := by rw [hlog]
  have hreleases : q.log.releases = p.log.releases := by rw [hlog]
  constructor
  · rw [h.call]
    exact hp.call
  · rw [h.reply]
    exact hp.reply
  · rw [h.replyGen, h.reply]
    exact hp.replyGen
  · rw [h.records]
    exact hp.gen
  · rw [h.records]
    exact hp.pending
  · rw [h.records, h.calls, hanswered]
    exact hp.calls
  · rw [h.records]
    exact hp.apart
  · rw [h.calls, hanswered]
    exact hp.answered
  · intro u hu
    rw [hlog] at hu
    exact (huses u hu).elim (hp.uses u) id
  · rw [htokens]
    exact hp.tokens
  · rw [hholds, h.reply]
    exact hp.holds
  · rw [hreleases]
    exact hp.releases

theorem ownedAt (h : Frame p q) {k : Nat} (hp : p.OwnedAt k) : q.OwnedAt k := by
  unfold OwnedAt at hp ⊢
  rw [h.call, h.records]
  exact hp

theorem inv (h : Frame p q) (hp : p.Inv) : q.Inv :=
  ⟨h.kept hp.toKept, fun k hk => h.ownedAt (hp.owned k (by rwa [h.call] at hk))⟩

end Frame

theorem frame_use (slot : Fin ringSlots) {len : Nat} (hlen : len ≤ slotBytes) : Frame p (p.use slot len) := by
  refine ⟨rfl, rfl, rfl, rfl, rfl, _, rfl, fun u hu => ?_⟩
  obtain rfl | hu := List.mem_cons.mp hu
  · exact .inr ⟨slot.isLt, hlen⟩
  · exact .inl hu

theorem frame_setHead (cls : Class) (head : BitVec 32) : Frame p (p.setHead cls head) := by
  cases cls with
  | call => exact ⟨rfl, rfl, rfl, rfl, rfl, p.log.uses, rfl, fun _ => .inl⟩
  | reply => exact ⟨rfl, rfl, rfl, rfl, rfl, p.log.uses, rfl, fun _ => .inl⟩

theorem frame_tailBelieved (tail : BitVec 32) : Frame p (p.tailBelieved tail).2 := by
  unfold tailBelieved
  split_ifs
  · exact ⟨rfl, rfl, rfl, rfl, rfl, p.log.uses, rfl, fun _ => .inl⟩
  · exact ⟨rfl, rfl, rfl, rfl, rfl, p.log.uses, rfl, fun _ => .inl⟩
  · exact ⟨rfl, rfl, rfl, rfl, rfl, p.log.uses, rfl, fun _ => .inl⟩

theorem frame_publish (cls : Class) (tail : BitVec 32) {len : Nat} (hlen : len ≤ slotBytes) :
    Frame p (p.publish cls tail len).2 := by
  unfold publish
  simp only
  split_ifs
  · exact .refl
  · exact .refl
  · exact (frame_use _ hlen).trans (frame_setHead ..)

theorem frame_send (port tail : BitVec 32) (len : Nat) : Frame p (p.send port tail len).2 := by
  unfold send
  split
  · exact .refl
  split
  · exact .refl
  next hlen =>
    cases classOf port with
    | call => exact frame_publish _ _ (not_lt.mp hlen)
    | reply =>
      simp only
      split
      · exact (frame_tailBelieved tail).trans (frame_publish _ _ (not_lt.mp hlen))
      · exact frame_tailBelieved tail

/-! ### Records -/

theorem setRecord_self (i : Fin ringSlots) (r : Inbound) : (p.setRecord i r).records i = r := update_self ..

theorem setRecord_of_ne {i j : Fin ringSlots} (h : j ≠ i) (r : Inbound) :
    (p.setRecord i r).records j = p.records j := update_of_ne h ..

/-- A record that stands in place `i` counts its deaths, and its call is answered by none and held by no other record. -/
structure Fits (p : Pair) (i : Fin ringSlots) (r : Inbound) : Prop where
  gen : r.gen = BitVec.ofNat 32 r.deaths
  pending : r.pending ≠ .none → r.live = true
  calls : r.live = true → r.call < p.calls ∧ r.call ∉ p.log.answered
  apart : r.live = true → ∀ j, j ≠ i → (p.records j).live = true → (p.records j).call ≠ r.call

theorem Kept.fits (h : p.Kept) (i : Fin ringSlots) : p.Fits i (p.records i) :=
  ⟨h.gen i, h.pending i, h.calls i, fun hi j hne hj heq => hne (h.apart j i hj hi heq)⟩

theorem Kept.setRecord (h : p.Kept) {i : Fin ringSlots} {r : Inbound} (hr : p.Fits i r) : (p.setRecord i r).Kept := by
  refine ⟨h.call, h.reply, h.replyGen, ?_, ?_, ?_, ?_, h.answered, h.uses, h.tokens, h.holds, h.releases⟩
  · intro j
    by_cases hj : j = i
    · rw [hj, setRecord_self]
      exact hr.gen
    · rw [setRecord_of_ne hj]
      exact h.gen j
  · intro j
    by_cases hj : j = i
    · rw [hj, setRecord_self]
      exact hr.pending
    · rw [setRecord_of_ne hj]
      exact h.pending j
  · intro j
    by_cases hj : j = i
    · rw [hj, setRecord_self]
      exact hr.calls
    · rw [setRecord_of_ne hj]
      exact h.calls j
  · intro j k
    by_cases hj : j = i
    · rw [hj, setRecord_self]
      by_cases hk : k = i
      · rw [hk]
        exact fun _ _ _ => rfl
      · rw [setRecord_of_ne hk]
        exact fun h1 h2 h3 => absurd h3.symm (hr.apart h1 k hk h2)
    · rw [setRecord_of_ne hj]
      by_cases hk : k = i
      · rw [hk, setRecord_self]
        exact fun h1 h2 h3 => absurd h3 (hr.apart h2 j hj h1)
      · rw [setRecord_of_ne hk]
        exact h.apart j k

theorem ofNat_deaths {r : Inbound} (h : r.gen = BitVec.ofNat 32 r.deaths) : r.gen + 1 = BitVec.ofNat 32 (r.deaths + 1) := by
  rw [h, BitVec.ofNat_add]
  rfl

theorem Fits.drop {i : Fin ringSlots} {r : Inbound} (h : p.Fits i r) : p.Fits i r.drop :=
  ⟨ofNat_deaths h.gen, fun hp => absurd rfl hp, fun hl => (by cases hl), fun hl => (by cases hl)⟩

theorem Fits.defer {i : Fin ringSlots} {r : Inbound} (h : p.Fits i r) (hlive : r.live = true) (state : Pending) :
    p.Fits i (r.defer state) :=
  ⟨ofNat_deaths h.gen, fun _ => hlive, h.calls, h.apart⟩

theorem ownedAt_setRecord {i : Fin ringSlots} {r : Inbound} {k : Nat} (h : p.OwnedAt k)
    (hr : r.live = true → (p.records i).live = true ∧ r.takenAt = (p.records i).takenAt) : (p.setRecord i r).OwnedAt k := by
  intro hbit
  have hp := h hbit
  by_cases hi : slotOf (p.call.tail + BitVec.ofNat 32 k) = i
  · rw [show (p.setRecord i r).call = p.call from rfl, hi, setRecord_self]
    rw [hi] at hp
    intro hlive
    obtain ⟨hlive', heq⟩ := hr hlive
    exact heq.trans (hp hlive')
  · rw [show (p.setRecord i r).call = p.call from rfl, setRecord_of_ne hi]
    exact hp

theorem Inv.setRecord (h : p.Inv) {i : Fin ringSlots} {r : Inbound} (hr : p.Fits i r)
    (htaken : r.live = true → (p.records i).live = true ∧ r.takenAt = (p.records i).takenAt) : (p.setRecord i r).Inv :=
  ⟨h.toKept.setRecord hr, fun k hk => ownedAt_setRecord (h.owned k hk) htaken⟩

theorem Inv.drop (h : p.Inv) (i : Fin ringSlots) : (p.setRecord i (p.records i).drop).Inv :=
  h.setRecord (h.toKept.fits i).drop fun hl => by cases hl

theorem Inv.defer (h : p.Inv) {i : Fin ringSlots} (hlive : (p.records i).live = true) (state : Pending) :
    (p.setRecord i ((p.records i).defer state)).Inv :=
  h.setRecord ((h.toKept.fits i).defer hlive state) fun _ => ⟨hlive, rfl⟩

theorem Kept.answer (h : p.Kept) {c : Nat} (hc : c < p.calls) (hnot : c ∉ p.log.answered)
    (hnone : ∀ j, (p.records j).live = true → (p.records j).call ≠ c) : (p.answered c).Kept := by
  refine ⟨h.call, h.reply, h.replyGen, h.gen, h.pending, ?_, h.apart, ⟨List.nodup_cons.mpr ⟨hnot, h.answered.1⟩, ?_⟩,
    h.uses, h.tokens, h.holds, h.releases⟩
  · intro i hi
    refine ⟨(h.calls i hi).1, fun hmem => ?_⟩
    obtain hmem | hmem := List.mem_cons.mp hmem
    · exact hnone i hi hmem
    · exact (h.calls i hi).2 hmem
  · intro d hd
    obtain rfl | hd := List.mem_cons.mp hd
    · exact hc
    · exact h.answered.2 d hd

theorem Inv.settle (h : p.Inv) {i : Fin ringSlots} (hlive : (p.records i).live = true) :
    ((p.answered (p.records i).call).setRecord i (p.records i).drop).Inv := by
  obtain ⟨hlt, hnot⟩ := h.calls i hlive
  refine ⟨(h.drop i).toKept.answer hlt hnot fun j hj => ?_, (h.drop i).owned⟩
  by_cases hji : j = i
  · rw [hji, setRecord_self] at hj
    cases hj
  · rw [setRecord_of_ne hji] at hj ⊢
    exact fun heq => hji (h.apart j i hj hlive heq)

/-! ### Releases -/

theorem offOf_slotOf (ib : Inbox) {k : Nat} (hk : k < ringSlots) : ib.offOf (slotOf (ib.tail + BitVec.ofNat 32 k)) = k := by
  have htail := ib.tail.isLt
  simp only [slotOf, Inbox.offOf, toNat_and_three, BitVec.toNat_add, BitVec.toNat_sub, BitVec.toNat_ofNat, ringSlots] at hk ⊢
  omega

theorem releases_cons {l : List Release} {cls : Class} {holder slot : Nat} {b : Bool}
    (hl : ∀ r ∈ l, r.holder ≤ r.slot ∧ (r.slot < r.holder + 2 ^ 16 → r.holder = r.slot))
    (hnew : b = false → holder ≤ slot ∧ (slot < holder + 2 ^ 16 → holder = slot)) :
    ∀ r ∈ (if b then l else ⟨cls, holder, slot⟩ :: l), r.holder ≤ r.slot ∧ (r.slot < r.holder + 2 ^ 16 → r.holder = r.slot) := by
  cases b with
  | true => exact hl
  | false =>
    intro r hr
    obtain rfl | hr := List.mem_cons.mp hr
    · exact hnew rfl
    · exact hl r hr

/-- `holder` may release the slot: where the slot is still held, it was taken in the same run. -/
def MayRelease (p : Pair) (slot : Fin ringSlots) (holder : Nat) : Prop :=
  ∀ k < p.call.held, p.call.released.getLsbD k = false → slotOf (p.call.tail + BitVec.ofNat 32 k) = slot → holder = p.call.resyncs

theorem Kept.releaseCall (h : p.Kept) {slot : Fin ringSlots} {holder : Nat} (hown : p.MayRelease slot holder) :
    (p.releaseCall slot holder).Kept := by
  unfold Pair.releaseCall
  simp only
  split
  · exact h
  next hoff =>
    rw [not_le] at hoff
    refine ⟨h.call.free hoff, h.reply, h.replyGen, h.gen, h.pending, h.calls, h.apart, h.answered, h.uses, h.tokens, h.holds, ?_⟩
    refine releases_cons h.releases fun hbit => ?_
    have hnow := hown _ hoff hbit (slotOf_offOf slot)
    have hat := h.call.takenAt _ hoff
    exact ⟨(hnow.trans hat.symm).le, fun _ => hnow.trans hat.symm⟩

theorem owned_releaseCall {slot : Fin ringSlots} {holder : Nat} (h : ∀ k < p.call.held, k ≠ p.call.offOf slot → p.OwnedAt k)
    (hout : p.call.held ≤ p.call.offOf slot → ∀ k < p.call.held, p.OwnedAt k) :
    ∀ k < (p.releaseCall slot holder).call.held, (p.releaseCall slot holder).OwnedAt k := by
  unfold Pair.releaseCall
  simp only
  split
  next hoff => exact hout hoff
  next hoff =>
    have hslot := offOf_lt p.call slot
    intro k hk hbit
    obtain ⟨j, hj, hjbit, hne, heq⟩ := free_position (hslot.trans (by decide)) hk hbit
    have hown := h j hj hne hjbit
    simp only at heq ⊢
    rw [heq]
    obtain ⟨m, -, hfree⟩ := free_eq p.call (p.call.offOf slot)
    rw [show (p.call.free (p.call.offOf slot)).resyncs = p.call.resyncs by rw [hfree]]
    exact hown

theorem Inv.releaseCall (h : p.Inv) {slot : Fin ringSlots} {holder : Nat} (hown : p.MayRelease slot holder) :
    (p.releaseCall slot holder).Inv :=
  ⟨h.toKept.releaseCall hown, owned_releaseCall (fun k hk _ => h.owned k hk) fun _ => h.owned⟩

theorem Inv.mayRelease (h : p.Inv) {i : Fin ringSlots} (hlive : (p.records i).live = true) :
    p.MayRelease i (p.records i).takenAt := by
  rintro k hk hbit rfl
  exact h.owned k hk hbit hlive

/-- A hold of the same generation is of this run, unless the ring was resynchronised 2^16 times since. -/
theorem eq_of_gen {a b : Nat} (hle : a ≤ b) (hgen : BitVec.ofNat 16 a = BitVec.ofNat 16 b) (hlt : b < a + 2 ^ 16) : a = b := by
  have h := congrArg BitVec.toNat hgen
  rw [BitVec.toNat_ofNat, BitVec.toNat_ofNat] at h
  omega

theorem Kept.releaseReply (h : p.Kept) {slot : Fin ringSlots} {holder : Nat} (hle : holder ≤ p.reply.resyncs)
    (hgen : BitVec.ofNat 16 holder = p.replyGen) : (p.releaseReply slot holder).Kept := by
  unfold Pair.releaseReply
  simp only
  split
  · exact h
  next hoff =>
    rw [not_le] at hoff
    obtain ⟨m, -, hfree⟩ := free_eq p.reply (p.reply.offOf slot)
    have hresyncs : (p.reply.free (p.reply.offOf slot)).resyncs = p.reply.resyncs := by rw [hfree]
    refine ⟨h.call, h.reply.free hoff, hresyncs ▸ h.replyGen, h.gen, h.pending, h.calls, h.apart, h.answered, h.uses, h.tokens,
      hresyncs ▸ h.holds, ?_⟩
    refine releases_cons h.releases fun _ => ?_
    rw [h.reply.takenAt _ hoff]
    exact ⟨hle, eq_of_gen hle (hgen.trans h.replyGen)⟩

theorem releaseReply_call (slot : Fin ringSlots) (holder : Nat) : (p.releaseReply slot holder).call = p.call ∧
    (p.releaseReply slot holder).records = p.records := by
  unfold Pair.releaseReply
  simp only
  split
  · exact ⟨rfl, rfl⟩
  · exact ⟨rfl, rfl⟩

theorem Inv.releaseReply (h : p.Inv) {slot : Fin ringSlots} {holder : Nat} (hle : holder ≤ p.reply.resyncs)
    (hgen : BitVec.ofNat 16 holder = p.replyGen) : (p.releaseReply slot holder).Inv := by
  refine ⟨h.toKept.releaseReply hle hgen, ?_⟩
  obtain ⟨hcall, hrecords⟩ := releaseReply_call (p := p) slot holder
  intro k hk
  unfold OwnedAt
  rw [hcall, hrecords]
  rw [hcall] at hk
  exact h.owned k hk

/-! ### The operations on records -/

theorem recordOf_eq_some {slot : Fin ringSlots} {gen : BitVec 16} {r : Inbound} (h : p.recordOf slot gen = some r) :
    r = p.records slot ∧ (p.records slot).live = true := by
  unfold recordOf at h
  simp only at h
  split at h
  next hlive =>
    cases h
    exact ⟨rfl, hlive.1⟩
  next => cases h

theorem Inv.inboundForget (h : p.Inv) (slot : Fin ringSlots) (gen : BitVec 16) : (p.inboundForget slot gen).Inv := by
  unfold Pair.inboundForget
  cases hr : p.recordOf slot gen with
  | none => exact h
  | some r =>
    obtain ⟨rfl, -⟩ := recordOf_eq_some hr
    exact h.drop slot

theorem Inv.inboundReply (h : p.Inv) (slot : Fin ringSlots) (gen : BitVec 16) (len : Nat) (tail : BitVec 32) :
    (p.inboundReply slot gen len tail).Inv := by
  unfold Pair.inboundReply
  cases hr : p.recordOf slot gen with
  | none => exact h
  | some r =>
    obtain ⟨rfl, hlive⟩ := recordOf_eq_some hr
    have hf := frame_send (p := p) portReply tail len
    have hs := hf.inv h
    simp only
    rw [← hf.records] at hlive ⊢
    split
    · exact (hs.settle hlive).releaseCall (hs.mayRelease hlive)
    · exact hs.defer hlive .held

theorem Inv.answerRecord (h : p.Inv) (tails : Fin ringSlots → BitVec 32) (i : Fin ringSlots) : (p.answerRecord tails i).Inv := by
  unfold Pair.answerRecord
  simp only
  split
  · exact h
  next hlive =>
    rw [Bool.not_eq_false] at hlive
    split
    · exact h.setRecord ⟨h.gen i, fun _ => hlive, h.calls i, (h.toKept.fits i).apart⟩ fun _ => ⟨hlive, rfl⟩
    · have hf := frame_send (p := p) portReply (tails i) 0
      have hs := hf.inv h
      rw [← hf.records] at hlive ⊢
      split
      · exact hs.settle hlive
      · exact hs.defer hlive .gone

theorem Inv.recordAnswerPair (h : p.Inv) (tails : Fin ringSlots → BitVec 32) : (p.recordAnswerPair tails).Inv := by
  unfold Pair.recordAnswerPair
  generalize List.finRange ringSlots = places
  induction places generalizing p with
  | nil => exact h
  | cons i rest ih => exact ih (h.answerRecord tails i)

theorem Inv.answerOne (h : p.Inv) (tail : BitVec 32) (i : Fin ringSlots) : (p.answerOne tail i).1.Inv := by
  unfold Pair.answerOne
  simp only
  split
  · exact h
  next hpending =>
    have hf := frame_send (p := p) portReply tail 0
    have hs := hf.inv h
    have hlive := h.pending i hpending
    rw [← hf.records] at hlive hpending ⊢
    by_cases hok : (p.send portReply tail 0).1 = .ok
    · rw [if_pos hok, if_pos hok, if_neg (fun hc => hc.1 hok)]
      simp only
      split
      · exact hs.settle hlive
      · exact (hs.settle hlive).releaseCall (hs.mayRelease hlive)
    · rw [if_neg hok, if_neg hok]
      have hfits := hs.toKept.fits i
      split
      · exact hs.setRecord ⟨hfits.gen, hfits.pending, hfits.calls, hfits.apart⟩ fun _ => ⟨hlive, rfl⟩
      · have hdrop : ((p.send portReply tail 0).2.setRecord i
            ({ (p.send portReply tail 0).2.records i with
                defers := ((p.send portReply tail 0).2.records i).defers + 1 } : Inbound).drop).Inv :=
          hs.setRecord (Fits.drop ⟨hfits.gen, hfits.pending, hfits.calls, hfits.apart⟩) fun hl => by cases hl
        simp only
        split
        · exact hdrop
        · exact hdrop.releaseCall (hs.mayRelease hlive)

theorem Inv.answerDeferredOn (tails : Fin ringSlots → BitVec 32) : ∀ (places : List (Fin ringSlots)) {q : Pair}, q.Inv →
    (answerDeferredOn tails places q).Inv
  | [], _, h => h
  | i :: rest, q, h => by
    rw [Pair.answerDeferredOn]
    split
    · exact answerDeferredOn tails rest (h.answerOne (tails i) i)
    · exact h.answerOne (tails i) i

/-! ### The takes -/

theorem Inbox.Ok.strikes (h : ib.Ok) (n : Nat) : ({ ib with strikes := n } : Inbox).Ok := ⟨h.held, h.bits, h.takenAt⟩

theorem Inv.callStrikes (h : p.Inv) (n : Nat) : ({ p with call := { p.call with strikes := n } } : Pair).Inv :=
  ⟨⟨Inbox.Ok.strikes h.call n, h.reply, h.replyGen, h.gen, h.pending, h.calls, h.apart, h.answered, h.uses, h.tokens,
    h.holds, h.releases⟩, h.owned⟩

theorem Inv.callDepthOk (h : p.Inv) (head : BitVec 32) (tails : Fin ringSlots → BitVec 32) :
    (p.callDepthOk head tails).2.Inv := by
  unfold Pair.callDepthOk
  split
  · exact h.callStrikes 0
  split
  · exact h.callStrikes _
  · have hheld : (resync p.call head).held = 0 := by simp [resync, Inbox.held, outstanding]
    have hkept : ({ p with call := resync p.call head } : Pair).Kept :=
      ⟨ok_resync head, h.reply, h.replyGen, h.gen, h.pending, h.calls, h.apart, h.answered, h.uses, h.tokens, h.holds, h.releases⟩
    refine (Inv.mk hkept fun k hk => ?_).recordAnswerPair tails
    rw [hheld] at hk
    cases hk

theorem callDepthOk_true {head : BitVec 32} {tails : Fin ringSlots → BitVec 32} (h : (p.callDepthOk head tails).1 = true) :
    deepest (p.callDepthOk head tails).2.call head ≤ ringSlots := by
  unfold Pair.callDepthOk at h ⊢
  split at h
  next hdeep =>
    rw [if_pos hdeep]
    exact hdeep
  · split at h
    · cases h
    · cases h

/-- The pair with one more slot of the call ring taken. -/
def takeOn (p : Pair) : Pair := { p with call := p.call.take, calls := p.calls + 1 }

/-- A call taken owes what no record holds and no answer was sent for. The record at its slot, if one stands there, is
of an earlier run. -/
theorem Kept.takeOn (h : p.Kept) (hlt : p.call.held < ringSlots) : p.takeOn.Kept where
  call := h.call.take hlt
  reply := h.reply
  replyGen := h.replyGen
  gen := h.gen
  pending := h.pending
  calls i hi := ⟨(h.calls i hi).1.trans (Nat.lt_succ_self _), (h.calls i hi).2⟩
  apart := h.apart
  answered := ⟨h.answered.1, fun c hc => (h.answered.2 c hc).trans (Nat.lt_succ_self _)⟩
  uses := h.uses
  tokens := h.tokens
  holds := h.holds
  releases := h.releases

theorem offOf_taken (hlt : p.call.held < ringSlots) : p.call.offOf (slotOf p.call.taken) = p.call.held := by
  have h := offOf_slotOf p.call hlt
  rwa [tail_add_held] at h

theorem Inv.take_releaseCall (h : p.Inv) (hlt : p.call.held < ringSlots) (hq : q.Kept) (hcall : q.call = p.call.take)
    (hrecords : q.records = p.records) : (q.releaseCall (slotOf p.call.taken) p.call.resyncs).Inv := by
  have hheld : q.call.held = p.call.held + 1 := by rw [hcall, held_take hlt]
  have hoff : q.call.offOf (slotOf p.call.taken) = p.call.held := by
    rw [hcall]
    exact offOf_taken hlt
  refine ⟨hq.releaseCall fun _ _ _ _ => by rw [hcall]; rfl, owned_releaseCall ?_ ?_⟩
  · intro k hk hne
    rw [hheld] at hk
    rw [hoff] at hne
    unfold OwnedAt
    rw [hcall, hrecords]
    exact h.owned k (lt_of_le_of_ne (Nat.le_of_lt_succ hk) hne)
  · rw [hheld, hoff]
    exact fun hle => absurd hle (Nat.not_succ_le_self _)

theorem Inv.takeCall (h : p.Inv) (minted : BitVec 32) (far : Far) :
    ((p.takeCall minted far).1 ≠ .took → (p.takeCall minted far).2.Inv) ∧
    ((p.takeCall minted far).1 = .took →
      far.len.toNat ≤ slotBytes ∧ ∃ q : Pair, q.Inv ∧ q.call.held < ringSlots ∧ (p.takeCall minted far).2 = q.takeOn) := by
  unfold Pair.takeCall
  simp only
  have hd := h.callDepthOk far.head far.answerTails
  split
  · exact ⟨fun _ => hd, fun hc => by cases hc⟩
  next hdepth =>
    have hdeep := callDepthOk_true (Bool.not_eq_false _ ▸ hdepth)
    split
    · exact ⟨fun _ => hd, fun hc => by cases hc⟩
    next hunread =>
      have hlt := held_lt hd.call.held hdeep hunread
      generalize (p.callDepthOk far.head far.answerTails).2 = d at hd hlt
      have hu := (frame_use (p := d) (slotOf d.call.taken) (Nat.zero_le _)).inv hd
      split
      next hv =>
        refine ⟨fun _ => hu.take_releaseCall hlt ?_ rfl rfl, fun hc => absurd hc hv⟩
        exact ⟨hu.call.take hlt, hu.reply, hu.replyGen, hu.gen, hu.pending, hu.calls, hu.apart, hu.answered, hu.uses,
          hu.tokens, hu.holds, hu.releases⟩
      next hv =>
        have hf := frame_tailBelieved (p := d.use (slotOf d.call.taken) 0) far.reserveTail
        split
        · exact ⟨fun _ => hf.inv hu, fun hc => by cases hc⟩
        · refine ⟨fun hc => absurd rfl hc, fun _ => ⟨?_, _, hf.inv hu, ?_, rfl⟩⟩
          · rw [not_not] at hv
            unfold slotOk at hv
            split at hv
            · cases hv
            next hlen => exact not_lt.mp hlen
          · exact lt_of_eq_of_lt (congrArg Inbox.held hf.call) hlt

theorem slotOf_takeOn : slotOf (p.takeOn.call.taken - 1) = slotOf p.call.taken := by
  rw [show p.takeOn.call.taken = p.call.taken + 1 from rfl, BitVec.add_sub_cancel]

theorem Inv.seat (h : p.Inv) (hlt : p.call.held < ringSlots) (hfree : (p.records (slotOf p.call.taken)).live = false)
    (tag : ReplyTag) (badge : BitVec 32) : (p.takeOn.seat (slotOf p.call.taken) tag badge p.calls).Inv := by
  have hkept := h.toKept.takeOn hlt
  have hpending : (p.records (slotOf p.call.taken)).pending = .none := by
    by_contra hne
    rw [h.pending _ hne] at hfree
    cases hfree
  have hset := hkept.setRecord (i := slotOf p.call.taken)
    (r := { p.records (slotOf p.call.taken) with
      tag := tag, badge := badge, live := true, call := p.calls, takenAt := p.call.resyncs })
    ⟨h.gen _, fun _ => rfl, fun _ => ⟨Nat.lt_succ_self _, fun hmem => Nat.lt_irrefl _ (h.answered.2 _ hmem)⟩,
      fun _ j _ hj => ((h.calls j hj).1).ne⟩
  refine ⟨⟨hset.call, hset.reply, hset.replyGen, hset.gen, hset.pending, hset.calls, hset.apart, hset.answered,
    hset.uses, ?_, hset.holds, hset.releases⟩, ?_⟩
  · intro t ht
    obtain rfl | ht := List.mem_cons.mp ht
    · have hgen : (p.records (slotOf p.call.taken)).gen = _ := h.gen _
      change (p.records (slotOf p.call.taken)).gen.setWidth 16 = BitVec.ofNat 16 (p.records (slotOf p.call.taken)).deaths
      rw [hgen]
      apply BitVec.eq_of_toNat_eq
      rw [BitVec.toNat_setWidth, BitVec.toNat_ofNat, BitVec.toNat_ofNat]
      omega
    · exact h.tokens t ht
  · intro k hk hbit
    change (update p.records _ _ (slotOf (p.call.tail + BitVec.ofNat 32 k))).live = true →
      (update p.records _ _ (slotOf (p.call.tail + BitVec.ofNat 32 k))).takenAt = p.call.resyncs
    by_cases hs : slotOf (p.call.tail + BitVec.ofNat 32 k) = slotOf p.call.taken
    · rw [hs, update_self]
      exact fun _ => rfl
    · rw [update_of_ne hs]
      have hk' : k < p.call.held + 1 := (held_take hlt) ▸ hk
      refine h.owned k (lt_of_le_of_ne (Nat.le_of_lt_succ hk') ?_) hbit
      rintro rfl
      exact hs (by rw [tail_add_held])

theorem Inv.dispatchCall (h : p.Inv) (hlt : p.call.held < ringSlots) {far : Far} (hlen : far.len.toNat ≤ slotBytes)
    (bound ready : Bool) (tail : BitVec 32) : (p.takeOn.dispatchCall far (slotOf (p.takeOn.call.taken - 1))
    (p.takeOn.calls - 1) bound ready tail).Inv := by
  rw [slotOf_takeOn, show p.takeOn.calls - 1 = p.calls from rfl]
  unfold Pair.dispatchCall
  split
  next hseat => exact h.seat hlt hseat.2.2 far.tag far.badge
  next =>
    simp only
    have hlen' : (if bound = false ∧ far.port = portEcho then far.len.toNat else 0) ≤ slotBytes := by
      split
      · exact hlen
      · exact Nat.zero_le _
    generalize (if bound = false ∧ far.port = portEcho then far.len.toNat else 0) = len at hlen'
    have hf := (frame_use (p := p.takeOn) (slotOf p.call.taken) hlen').trans (frame_send portReply tail len)
    have hs := hf.kept (h.toKept.takeOn hlt)
    obtain ⟨uses, hlog, -⟩ := hf.log
    split
    · refine h.take_releaseCall hlt (hs.answer ?_ ?_ ?_) hf.call hf.records
      · rw [hf.calls]
        exact Nat.lt_succ_self _
      · rw [hlog]
        exact fun hmem => Nat.lt_irrefl _ (h.answered.2 _ hmem)
      · rw [hf.records]
        exact fun j hj => (h.calls j hj).1.ne
    · exact h.take_releaseCall hlt hs hf.call hf.records

theorem Inv.serveCall (h : p.Inv) (minted : BitVec 32) (far : Far) (bound ready : Bool) (tail : BitVec 32) :
    (p.serveCall minted far bound ready tail).Inv := by
  obtain ⟨hother, htook⟩ := h.takeCall minted far
  unfold Pair.serveCall
  simp only
  split
  next ht =>
    obtain ⟨hlen, q, hq, hlt, heq⟩ := htook ht
    rw [heq]
    exact hq.dispatchCall hlt hlen bound ready tail
  next ht => exact hother ht

theorem Inv.withReply (h : p.Inv) {ib : Inbox} {gen : BitVec 16} (hok : ib.Ok) (hgen : gen = BitVec.ofNat 16 ib.resyncs)
    (hle : p.reply.resyncs ≤ ib.resyncs) : ({ p with reply := ib, replyGen := gen } : Pair).Inv :=
  ⟨⟨h.call, hok, hgen, h.gen, h.pending, h.calls, h.apart, h.answered, h.uses, h.tokens,
    fun hd hh => ⟨(h.holds hd hh).1, (h.holds hd hh).2.trans hle⟩, h.releases⟩, h.owned⟩

theorem Inv.replyDepthOk (h : p.Inv) (head : BitVec 32) : (p.replyDepthOk head).2.Inv := by
  unfold Pair.replyDepthOk
  split
  · exact h.withReply (Inbox.Ok.strikes h.reply 0) h.replyGen le_rfl
  split
  · exact h.withReply (Inbox.Ok.strikes h.reply _) h.replyGen le_rfl
  · refine h.withReply (ok_resync head) ?_ (Nat.le_succ _)
    rw [h.replyGen]
    exact (BitVec.ofNat_add ..).symm

theorem replyDepthOk_true {head : BitVec 32} (h : (p.replyDepthOk head).1 = true) :
    deepest (p.replyDepthOk head).2.reply head ≤ ringSlots ∧ (p.replyDepthOk head).2.reply.taken = p.reply.taken := by
  unfold Pair.replyDepthOk at h ⊢
  split at h
  next hdeep =>
    rw [if_pos hdeep]
    exact ⟨hdeep, rfl⟩
  · split at h
    · cases h
    · cases h

theorem Inv.serveReply (h : p.Inv) (minted : BitVec 32) (far : Far) (lands : Bool) : (p.serveReply minted far lands).Inv := by
  unfold Pair.serveReply
  simp only
  split
  · exact h
  have hd := h.replyDepthOk far.head
  split
  · exact hd
  next hno =>
    obtain ⟨hdepth, hunread⟩ := not_or.mp hno
    obtain ⟨hdeep, htaken⟩ := replyDepthOk_true (Bool.not_eq_false _ ▸ hdepth)
    have hlt := held_lt hd.reply.held hdeep (htaken ▸ hunread)
    generalize (p.replyDepthOk far.head).2 = d at hd hlt
    have ht : ({ d with reply := d.reply.take } : Pair).Inv := hd.withReply (hd.reply.take hlt) hd.replyGen le_rfl
    have hu := (frame_use (slotOf d.reply.taken) (Nat.zero_le _)).inv ht
    split
    · refine ⟨⟨hu.call, hu.reply, hu.replyGen, hu.gen, hu.pending, hu.calls, hu.apart, hu.answered, hu.uses,
        hu.tokens, ?_, hu.releases⟩, hu.owned⟩
      intro hold hmem
      obtain rfl | hmem := List.mem_cons.mp hmem
      · exact ⟨hu.replyGen, le_rfl⟩
      · exact hu.holds hold hmem
    · exact hu.releaseReply le_rfl hu.replyGen.symm

/-! ### The node -/

theorem Inv.step (h : p.Inv) (minted : BitVec 32) {o : Op} (ho : o.Held p) : (p.step minted o).Inv := by
  cases o with
  | serveCall far bound ready tail => exact h.serveCall minted far bound ready tail
  | serveReply far lands => exact h.serveReply minted far lands
  | answerDeferred tails => exact Inv.answerDeferredOn tails _ h
  | inboundReply slot gen len tail => exact h.inboundReply slot gen len tail
  | inboundForget slot gen => exact h.inboundForget slot gen
  | holdRelease hold =>
    obtain ⟨hgen, hle⟩ := h.holds hold ho
    change (p.holdRelease hold).Inv
    unfold Pair.holdRelease
    split
    · exact h
    next heq => exact h.releaseReply hle (hgen.symm.trans (not_not.mp heq))
  | copyCall slot gen n =>
    change (p.holdCopy _ slot n).Inv
    unfold Pair.holdCopy
    split
    · exact h
    next hno => exact (frame_use slot (not_lt.mp (not_or.mp hno).1)).inv h
  | copyReply hold n =>
    change (p.holdCopy _ hold.slot n).Inv
    unfold Pair.holdCopy
    split
    · exact h
    next hno => exact (frame_use hold.slot (not_lt.mp (not_or.mp hno).1)).inv h
  | sendCall port tail len => exact (frame_send port tail len).inv h

theorem Booted.inv (h : p.Booted) : p.Inv := by
  have hcall : p.call.held = 0 := by rw [h.call]; simp [Inbox.held, outstanding]
  have hreply : p.reply.held = 0 := by rw [h.reply]; simp [Inbox.held, outstanding]
  have hrecords : p.records = fun _ => {} := by rw [h.rest]
  have hlog : p.log = {} := by rw [h.rest]
  refine ⟨⟨⟨by simp [hcall], ?_, by simp [hcall]⟩, ⟨by simp [hreply], ?_, by simp [hreply]⟩, ?_, ?_, ?_, ?_, ?_, ?_,
    ?_, ?_, ?_, ?_⟩, ?_⟩
  · rw [h.call]
    simp
  · rw [h.reply]
    simp
  · rw [h.rest, h.reply]
    rfl
  all_goals simp [hcall, hrecords, hlog]

/-- What a peer cannot break. -/
structure Sound (p : Pair) : Prop where
  runs : ∀ ib ∈ [p.call, p.reply], ib.held ≤ ringSlots ∧ ∀ k, ib.released.getLsbD k = true → k < ib.held
  uses : ∀ u ∈ p.log.uses, u.1 < ringSlots ∧ u.2 ≤ slotBytes
  answered : p.log.answered.Nodup ∧ ∀ c ∈ p.log.answered, c < p.calls
  tokens : ∀ t ∈ p.log.tokens, t.deaths < (p.records t.slot).deaths → (p.records t.slot).deaths ≤ t.deaths + 65535 →
    p.recordOf t.slot t.gen = none
  /-- What released a slot was taken in the run of the slot, unless 65536 resynchronisations lie between. -/
  releases : ∀ r ∈ p.log.releases, r.holder ≤ r.slot ∧ (r.slot < r.holder + 65536 → r.holder = r.slot)

theorem Kept.recordOf_eq_none (h : p.Kept) {t : Token} (ht : t ∈ p.log.tokens) (hdead : t.deaths < (p.records t.slot).deaths)
    (hnear : (p.records t.slot).deaths ≤ t.deaths + 65535) : p.recordOf t.slot t.gen = none := by
  unfold recordOf
  refine if_neg fun hc => ?_
  have heq := congrArg BitVec.toNat hc.2
  rw [h.gen, h.tokens t ht, BitVec.toNat_setWidth, BitVec.toNat_ofNat, BitVec.toNat_ofNat] at heq
  omega

theorem Inv.sound (h : p.Inv) : p.Sound where
  runs ib hib := by
    obtain rfl | hib := List.mem_cons.mp hib
    · exact ⟨h.call.held, h.call.bits⟩
    · rw [List.mem_singleton.mp hib]
      exact ⟨h.reply.held, h.reply.bits⟩
  uses := h.uses
  answered := h.answered
  tokens _ ht hdead hnear := h.toKept.recordOf_eq_none ht hdead hnear
  releases := h.releases

end Pair

theorem Node.Reachable.inv {minted : BitVec 32} {n : Node} (h : n.Reachable minted) (peer : Nat) : (n.toward peer).Inv := by
  induction h with
  | boot h => exact (h peer).inv
  | step _ other ho ih =>
    by_cases heq : peer = other
    · subst heq
      simp only [update_self]
      exact ih.step minted ho
    · simp only [update_of_ne heq]
      exact ih

/-- Whatever the peers answer to the loads of their words, the window of the node stands after every operation. -/
theorem window_stands {minted : BitVec 32} {n : Node} (h : n.Reachable minted) (peer : Nat) :
    (n.toward peer).Sound := (h.inv peer).sound

/-- A call to a bound port, behind a head of the peer's choice. -/
def callBehind (head : BitVec 32) : Op := .serveCall ⟨head, 4, 2, ⟨5, 6⟩, 0, 0, fun _ => 0⟩ true true 0

/-- A peer whose head jumps behind a call that is held: the call is answered at the fourth strike, and the token of its
record is dead. -/
theorem window_stands_jumpingHead : ∃ n : Node, n.Reachable 7 ∧ (n.toward 1).call.resyncs = 1 ∧ (n.toward 1).call.tail = 100 ∧
    (n.toward 1).log.answered = [0] ∧ (n.toward 1).log.tokens.length = 1 ∧ (n.toward 1).recordOf (slotOf 0) 0 = none ∧
      (n.toward 1).Sound := by
  have hboot : Node.Reachable 7 ⟨fun _ =>
      { call := ⟨0, 0, 0, 0, 0, fun _ => 0⟩, reply := ⟨0, 0, 0, 0, 0, fun _ => 0⟩, callHead := 0, replyHead := 0 }⟩ :=
    .boot fun _ => ⟨rfl, rfl, rfl⟩
  have hheld := hboot.step 1 (o := callBehind 1) trivial
  have hjump := (((hheld.step 1 (o := callBehind 100) trivial).step 1 (o := callBehind 100) trivial).step 1
      (o := callBehind 100) trivial).step 1 (o := callBehind 100) trivial
  exact ⟨_, hjump, rfl, rfl, rfl, rfl, rfl, window_stands hjump 1⟩

end KickOS.Amp
