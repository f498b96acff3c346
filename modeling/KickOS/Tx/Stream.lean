import KickOS.Tx.Model

/-! What is pushed to the device is the concatenation of the accepted lines, over every run of the inserts and of the
drains: a byte leaves the ring once, at the tail, and only a poll that gives up takes it from the stream. -/

namespace KickOS.Tx

open Lib.Wrapped

variable {c : Config} {x : Ring} {q : List (BitVec 8)}

/-! ### The indices -/

theorem size_pos (c : Config) : 0 < c.size := Nat.two_pow_pos _

theorem size_dvd (c : Config) : c.size ∣ 2 ^ 32 := Nat.pow_dvd_pow 2 c.bits_lt.le

theorem toNat_and_mask (v : BitVec 32) : (v &&& c.mask).toNat = v.toNat % c.size := by
  have hlt : c.size - 1 < 2 ^ 32 := (Nat.sub_lt (size_pos c) Nat.one_pos).trans_le (Nat.le_of_dvd (by decide) (size_dvd c))
  rw [BitVec.toNat_and, Config.mask, BitVec.toNat_ofNat, Nat.mod_eq_of_lt hlt]
  exact Nat.and_two_pow_sub_one_eq_mod v.toNat c.bits

theorem toNat_inc {i : BitVec 32} (hi : i.toNat < c.size) : (c.inc i).toNat = next c.size i.toNat := by
  rw [Config.inc, toNat_and_mask, BitVec.toNat_add, next_eq hi]
  exact Nat.mod_mod_of_dvd _ (size_dvd c)

theorem toNat_distance {cell : Nat → BitVec 8} {a b : BitVec 32} (h : Queued c.size cell a.toNat b.toNat q) :
    ((b - a) &&& c.mask).toNat = q.length := by
  obtain ⟨m, hm⟩ := size_dvd c
  have ha := a.isLt
  have hsum : 2 ^ 32 - a.toNat + (a.toNat + q.length) = q.length + c.size * m := by omega
  rw [toNat_and_mask, BitVec.toNat_sub, Nat.mod_mod_of_dvd _ (size_dvd c), h.wr_eq, Nat.add_mod_mod, hsum,
    Nat.add_mul_mod_self_left, Nat.mod_eq_of_lt h.free]

theorem toNat_used (h : Queued c.size x.cell x.tail.toNat x.head.toNat q) : (x.used c).toNat = q.length := toNat_distance h

theorem held_eq (h : Queued c.size x.cell x.tail.toNat x.head.toNat q) : x.held c = q := by
  apply List.ext_getElem
  · rw [Ring.held, List.length_map, List.length_range, toNat_used h]
  · intro k _ hk
    simp only [Ring.held, List.getElem_map, List.getElem_range]
    exact h.at_cell k hk

theorem tail_eq_head (h : Queued c.size x.cell x.tail.toNat x.head.toNat q) : x.tail = x.head ↔ q = [] := by
  rw [← h.eq_nil]
  exact ⟨congrArg _, BitVec.eq_of_toNat_eq⟩

/-! ### The copy -/

theorem length_cooked (l : Line) : l.cooked.length = lineNeeded l := by
  obtain ⟨bytes, crlf⟩ := l
  unfold Line.cooked lineNeeded
  induction bytes with
  | nil => simp
  | cons b rest ih =>
    simp only [List.flatMap_cons, List.length_append, List.length_cons, List.count_cons] at ih ⊢
    rw [ih, cookByte]
    cases crlf with
    | false =>
      simp
      omega
    | true =>
      by_cases hb : b = lf
      · simp [hb]
        omega
      · simp [hb]
        omega

theorem Queued.store {cell : Nat → BitVec 8} {rd : Nat} {idx : BitVec 32} (h : Queued c.size cell rd idx.toNat q)
    (hfree : q.length + 1 < c.size) (b : BitVec 8) : Queued c.size (Function.update cell idx.toNat b) rd
    (c.inc idx).toNat (q ++ [b]) := by
  rw [toNat_inc h.wr_lt]
  exact h.push hfree

theorem copyLine_queued (crlf : Bool) : ∀ (bytes : List (BitVec 8)) {cell : Nat → BitVec 8} {rd : Nat}
    {idx : BitVec 32} {q : List (BitVec 8)}, Queued c.size cell rd idx.toNat q →
    q.length + (bytes.flatMap (cookByte crlf)).length < c.size →
    Queued c.size (copyLine c crlf bytes cell idx).1 rd (copyLine c crlf bytes cell idx).2.toNat
    (q ++ bytes.flatMap (cookByte crlf))
  | [], _, _, _, _, h, _ => by simpa [copyLine] using h
  | b :: rest, cell, rd, idx, q, h, hfree => by
    rw [List.flatMap_cons, List.length_append] at hfree
    rw [copyLine, List.flatMap_cons, ← List.append_assoc]
    split
    next hb =>
      rw [cookByte, if_pos hb, List.length_cons, List.length_singleton] at hfree
      have h1 := Queued.store h (by omega) cr
      have h2 := Queued.store h1 (by rw [List.length_append, List.length_singleton]; omega) b
      have h3 := copyLine_queued crlf rest h2 (by simp only [List.length_append, List.length_singleton]; omega)
      rwa [cookByte, if_pos hb, show q ++ [cr, b] = q ++ [cr] ++ [b] by simp]
    next hb =>
      rw [cookByte, if_neg hb, List.length_singleton] at hfree
      have h1 := Queued.store h (by omega) b
      have h2 := copyLine_queued crlf rest h1 (by simp only [List.length_append, List.length_singleton]; omega)
      rwa [cookByte, if_neg hb]

/-! ### The run -/

/-- A count a producer drains up to is of bytes that were accepted. -/
def UpTo.Ok (u : UpTo) (total : Nat) : Prop := u.count = BitVec.ofNat 32 u.bytes ∧ u.bytes ≤ total

theorem UpTo.Ok.mono {u : UpTo} {m n : Nat} (h : u.Ok m) (hle : m ≤ n) : u.Ok n := ⟨h.1, h.2.trans hle⟩

/-- What a producer that is in its drain goes up to. -/
def Pc.upTo? : Pc → Option UpTo
  | .drain u => some u
  | .wait u => some u
  | _ => none

/-- `q` is what the ring holds. -/
structure Inv (c : Config) (x : Ring) (q : List (BitVec 8)) : Prop where
  ring : Queued c.size x.cell x.tail.toNat x.head.toNat q
  copy : ∀ p, x.inserting = some p → Queued c.size x.cell x.tail.toNat p.idx.toNat (q ++ p.line.cooked)
  order : x.log.gone.map Prod.fst ++ (x.inHand ++ q) = x.stream
  wire : x.log.wire = (x.log.gone.filter Prod.snd).map Prod.fst
  lost : x.log.gaveUp = 0 → (∀ g ∈ x.log.gone, g.2 = true) ∧ ∀ i, x.pc i ≠ .wedged
  queued : x.queued = BitVec.ofNat 32 x.stream.length
  drains : ∀ i u, (x.pc i).upTo? = some u → u.Ok x.stream.length
  pushes : ∀ p, x.pushing = some p → p.upTo.Ok x.stream.length
  carried : ∀ u, x.carry = some u → u.Ok x.stream.length

theorem setPc_self (i : Nat) (pc : Pc) : (x.setPc i pc).pc i = pc := Function.update_self ..

theorem setPc_of_ne {i j : Nat} (h : j ≠ i) (pc : Pc) : (x.setPc i pc).pc j = x.pc j := Function.update_of_ne h ..

theorem inHand_nil (h : x.pushing = none) : x.inHand = [] := by simp [Ring.inHand, h]

namespace Inv

variable {b : BitVec 8}

theorem setPc (h : Inv c x q) (pc : Pc) (hpc : pc ≠ .wedged) (hu : ∀ u, pc.upTo? = some u → u.Ok x.stream.length) (i : Nat) :
    Inv c (x.setPc i pc) q := by
  refine ⟨h.ring, h.copy, h.order, h.wire, fun hzero => ⟨(h.lost hzero).1, fun j => ?_⟩, h.queued, fun j => ?_,
    h.pushes, h.carried⟩
  · by_cases hj : j = i
    · rw [hj, setPc_self]
      exact hpc
    · rw [setPc_of_ne hj]
      exact (h.lost hzero).2 j
  · by_cases hj : j = i
    · rw [hj, setPc_self]
      exact hu
    · rw [setPc_of_ne hj]
      exact h.drains j

theorem idle (h : Inv c x q) (i : Nat) : Inv c (x.setPc i .idle) q := h.setPc _ (fun hc => by cases hc)
    (fun _ hc => by cases hc) i

theorem with_irqOn (h : Inv c x q) (on : Bool) : Inv c { x with irqOn := on } q :=
  { h with }

theorem with_roomWanted (h : Inv c x q) (n : BitVec 32) : Inv c { x with roomWanted := n } q :=
  { h with }

theorem upToNow_ok (h : Inv c x q) : x.upToNow.Ok x.stream.length := ⟨h.queued, le_rfl⟩

theorem cell_tail (h : Inv c x (b :: q)) : x.cell x.tail.toNat = b := h.ring.head

theorem pop (h : Inv c x (b :: q)) : Queued c.size x.cell (c.inc x.tail).toNat x.head.toNat q ∧
    ∀ p, x.inserting = some p → Queued c.size x.cell (c.inc x.tail).toNat p.idx.toNat (q ++ p.line.cooked) := by
  rw [toNat_inc h.ring.lt]
  exact ⟨h.ring.pop, fun p hp => (h.copy p hp).pop⟩

theorem push_log (h : Inv c x q) (b : BitVec 8) : (x.push b).log.wire = ((x.push b).log.gone.filter Prod.snd).map Prod.fst ∧
    (x.log.gaveUp = 0 → ∀ g ∈ (x.push b).log.gone, g.2 = true) := by
  refine ⟨?_, fun hzero g hg => ?_⟩
  · change x.log.wire ++ [b] = ((x.log.gone ++ [(b, true)]).filter Prod.snd).map Prod.fst
    rw [h.wire]
    simp
  · obtain hg | hg := List.mem_append.mp hg
    · exact (h.lost hzero).1 g hg
    · rw [List.mem_singleton.mp hg]

theorem sendTail (h : Inv c x (b :: q)) (hpushing : x.pushing = none) : Inv c (x.sendTail c) q := by
  obtain ⟨hwire, hlost⟩ := h.push_log (x.cell x.tail.toNat)
  refine ⟨h.pop.1, h.pop.2, ?_, hwire, fun hzero => ⟨hlost hzero, (h.lost hzero).2⟩, h.queued, h.drains, h.pushes, h.carried⟩
  have horder := h.order
  change (x.log.gone ++ [(x.cell x.tail.toNat, true)]).map Prod.fst ++ (x.inHand ++ q) = x.stream
  rw [inHand_nil hpushing] at horder ⊢
  rw [← horder, h.cell_tail]
  simp

theorem discard (h : Inv c x q) (hpushing : x.pushing = none) (hgave : x.log.gaveUp ≠ 0) : Inv c (x.discard c) [] := by
  have hheld := held_eq h.ring
  refine ⟨Queued.empty h.ring.wr_lt, ?_, ?_, ?_, fun hzero => absurd hzero hgave, h.queued, h.drains, h.pushes, h.carried⟩
  · intro p hp
    exact (h.copy p hp).right h.ring
  · have horder := h.order
    change (x.log.gone ++ (x.held c).map fun b => (b, false)).map Prod.fst ++ (x.inHand ++ []) = x.stream
    rw [inHand_nil hpushing] at horder ⊢
    rw [← horder, hheld]
    simp [Function.comp_def]
  · change x.log.wire = ((x.log.gone ++ (x.held c).map fun b => (b, false)).filter Prod.snd).map Prod.fst
    rw [h.wire]
    simp [List.filter_map, Function.comp_def]

theorem with_gaveUp (h : Inv c x q) : Inv c { x with log := { x.log with gaveUp := x.log.gaveUp + 1 } } q :=
  ⟨h.ring, h.copy, h.order, h.wire, fun hzero => absurd hzero (Nat.succ_ne_zero _), h.queued, h.drains, h.pushes, h.carried⟩

theorem sendSome : ∀ (n : Nat) {x : Ring} {q : List (BitVec 8)}, Inv c x q → x.pushing = none →
    ∃ q', Inv c (x.sendSome c n) q' ∧ (x.sendSome c n).pushing = none
  | 0, _, q, h, hp => ⟨q, h, hp⟩
  | n + 1, x, q, h, hp => by
    rw [Ring.sendSome]
    split
    · exact ⟨q, h, hp⟩
    next hne =>
      cases q with
      | nil => exact absurd ((tail_eq_head h.ring).mpr rfl) hne
      | cons b q => exact sendSome n (h.sendTail hp) hp

theorem beginInsert (h : Inv c x q) (l : Line) (producer : Option Nat) : Inv c (x.beginInsert c l producer) q := by
  unfold Ring.beginInsert
  split
  · exact h
  next hfits =>
    have hspace : lineNeeded l ≤ x.space c := not_lt.mp (not_or.mp hfits).2
    have hlen : q.length + l.cooked.length < c.size := by
      have hfree := h.ring.free
      rw [Ring.space, toNat_used h.ring] at hspace
      rw [length_cooked]
      omega
    have hcopy : Queued c.size (copyLine c l.crlf l.bytes x.cell x.head).1 x.tail.toNat
        (copyLine c l.crlf l.bytes x.cell x.head).2.toNat (q ++ l.cooked) := copyLine_queued l.crlf l.bytes h.ring hlen
    refine ⟨?_, ?_, h.order, h.wire, h.lost, h.queued, h.drains, h.pushes, h.carried⟩
    · have hleft := hcopy.left
      rwa [← h.ring.wr_eq] at hleft
    · intro p hp
      cases hp
      exact hcopy

theorem accept (h : Inv c x q) {p : Copy} (hp : x.inserting = some p) :
    Inv c { x with
      queued := x.queued + ((p.idx - x.head) &&& c.mask)
      head := p.idx
      inserting := none
      irqOn := true
      log := { x.log with accepted := x.log.accepted ++ [p.line] } } (q ++ p.line.cooked) := by
  have hcopy := h.copy p hp
  have hstream : (x.log.accepted ++ [p.line]).flatMap Line.cooked = x.stream ++ p.line.cooked := by simp [Ring.stream]
  have hle : x.stream.length ≤ ((x.log.accepted ++ [p.line]).flatMap Line.cooked).length := by
    rw [hstream, List.length_append]
    exact Nat.le_add_right _ _
  refine ⟨hcopy, fun _ hc => (by cases hc), ?_, h.wire, h.lost, ?_, fun i u hu => (h.drains i u hu).mono hle,
    fun p hp => (h.pushes p hp).mono hle, fun u hu => (h.carried u hu).mono hle⟩
  · change x.log.gone.map Prod.fst ++ (x.inHand ++ (q ++ p.line.cooked)) = (x.log.accepted ++ [p.line]).flatMap Line.cooked
    rw [hstream, ← h.order]
    simp
  · change x.queued + ((p.idx - x.head) &&& c.mask) = BitVec.ofNat 32 ((x.log.accepted ++ [p.line]).flatMap Line.cooked).length
    have hdist := toNat_distance (hcopy.right h.ring)
    rw [hstream, List.length_append, h.queued, BitVec.ofNat_add, ← hdist, BitVec.ofNat_toNat, BitVec.setWidth_eq]

/-- The line is accepted, and the first byte of a ring that no producer pushes from may be sent with it. -/
theorem endInsert (h : Inv c x q) (slotFree : Bool) : ∃ q', Inv c (x.endInsert c slotFree) q' := by
  unfold Ring.endInsert
  cases hp : x.inserting with
  | none => exact ⟨q, h⟩
  | some p =>
    have ha := h.accept hp
    simp only
    generalize hy : ({ x with
      queued := x.queued + ((p.idx - x.head) &&& c.mask)
      head := p.idx
      inserting := none
      irqOn := true
      log := { x.log with accepted := x.log.accepted ++ [p.line] } } : Ring) = y at ha
    have hprime : ∃ q', Inv c (if (p.wasEmpty = true ∨ p.line.bytes = []) ∧ x.pushing.isNone = true ∧ p.idx ≠ x.tail ∧
        slotFree = true then
        y.sendTail c else y) q' := by
      split
      next hc =>
        have hne : q ++ p.line.cooked ≠ [] := fun hnil =>
            hc.2.2.1 (by rw [← hy] at ha; exact ((tail_eq_head ha.ring).mpr hnil).symm)
        obtain ⟨b, rest, heq⟩ := List.exists_cons_of_ne_nil hne
        rw [heq] at ha
        exact ⟨rest, ha.sendTail (by rw [← hy]; exact Option.isNone_iff_eq_none.mp hc.2.1)⟩
      next => exact ⟨_, ha⟩
    obtain ⟨q', hq'⟩ := hprime
    cases p.producer with
    | none => exact ⟨q', hq'⟩
    | some i =>
      refine ⟨q', hq'.setPc _ (fun hc => by cases hc) (fun u hu => ?_) i⟩
      cases hu
      exact hq'.upToNow_ok

theorem ne_nil (h : Inv c x q) (hpushing : x.pushing = none) {u : UpTo} (hu : u.Ok x.stream.length)
    (htimely : x.log.gone.length < u.bytes + 2 ^ 31) (hleft : (x.queued - x.used c - u.count).msb ≠ false) : q ≠ [] := by
  rintro rfl
  have hgone : x.log.gone.length = x.stream.length := by
    have hlen := congrArg List.length h.order
    rw [inHand_nil hpushing] at hlen
    simpa using hlen
  have hused : x.used c = 0#32 := BitVec.eq_of_toNat_eq (toNat_used h.ring)
  obtain ⟨n, hn⟩ : ∃ n, x.stream.length = u.bytes + n := ⟨_, (Nat.add_sub_cancel' hu.2).symm⟩
  apply hleft
  rw [hused, BitVec.sub_zero, h.queued, hu.1, hn, BitVec.ofNat_add, BitVec.add_comm, BitVec.add_sub_cancel,
    BitVec.msb_eq_decide, decide_eq_false_iff_not, BitVec.toNat_ofNat, Nat.mod_eq_of_lt (by omega)]
  omega

theorem take (h : Inv c x (b :: q)) (hpushing : x.pushing = none) {u : UpTo} (hu : u.Ok x.stream.length) (i : Nat) :
    Inv c { (x.take c).setPc i .push with pushing := some ⟨i, u, x.cell x.tail.toNat⟩ } q := by
  have hpc := h.setPc .push (fun hc => by cases hc) (fun _ hc => by cases hc) i
  refine ⟨h.pop.1, h.pop.2, ?_, h.wire, hpc.lost, h.queued, hpc.drains, ?_, h.carried⟩
  · have horder := h.order
    rw [inHand_nil hpushing] at horder
    change x.log.gone.map Prod.fst ++ ([x.cell x.tail.toNat] ++ q) = x.stream
    rw [h.cell_tail]
    exact horder
  · intro p hp
    cases hp
    exact hu

theorem drainStep (h : Inv c x q) (i : Nat) (slotFree : Bool) (htimely : Op.Timely x (.drainStep i slotFree)) :
    ∃ q', Inv c (x.drainStep c i slotFree) q' := by
  unfold Ring.drainStep
  cases hpc : x.pc i with
  | drain upTo =>
    have hu : upTo.Ok x.stream.length := h.drains i upTo (by rw [hpc]; rfl)
    simp only
    split
    · have hidle := h.idle i
      refine ⟨q, hidle.ring, hidle.copy, hidle.order, hidle.wire, hidle.lost, hidle.queued, hidle.drains,
        hidle.pushes, fun u hu => ?_⟩
      cases hu
      exact h.upToNow_ok
    next hpushing =>
      rw [Option.not_isSome_iff_eq_none] at hpushing
      split
      · exact ⟨q, h.idle i⟩
      next hmore =>
        split
        · obtain ⟨b, rest, rfl⟩ := List.exists_cons_of_ne_nil (h.ne_nil hpushing hu (htimely upTo hpc) (not_or.mp hmore).2)
          exact ⟨rest, h.take hpushing hu i⟩
        · refine ⟨q, h.setPc _ (fun hc => by cases hc) (fun u hw => ?_) i⟩
          cases hw
          exact hu
  | idle => exact ⟨q, h⟩
  | wait _ => exact ⟨q, h⟩
  | push => exact ⟨q, h⟩
  | wedged => exact ⟨q, h⟩

theorem endPush (h : Inv c x q) : Inv c x.endPush q := by
  unfold Ring.endPush
  cases hp : x.pushing with
  | none => exact h
  | some p =>
    have hu : (x.carry.getD p.upTo).Ok x.stream.length := by
      cases hc : x.carry with
      | none => exact h.pushes p hp
      | some u => exact h.carried u hc
    have hpc := h.setPc (.drain (x.carry.getD p.upTo)) (fun hc => by cases hc) (fun u hw => by cases hw; exact hu) p.producer
    have hhand : x.inHand = [p.byte] := by simp [Ring.inHand, hp]
    obtain ⟨hwire, hlost⟩ := h.push_log p.byte
    refine ⟨h.ring, h.copy, ?_, hwire, fun hzero => ⟨hlost hzero, (hpc.lost hzero).2⟩, h.queued, hpc.drains,
      fun _ hc => (by cases hc), fun _ hc => (by cases hc)⟩
    have horder := h.order
    rw [hhand] at horder
    change (x.log.gone ++ [(p.byte, true)]).map Prod.fst ++ ([] ++ q) = x.stream
    rw [← horder]
    simp

theorem pollSlot (h : Inv c x q) (i : Nat) (found : Bool) : Inv c (x.pollSlot i found) q := by
  unfold Ring.pollSlot
  cases hpc : x.pc i with
  | wait upTo =>
    have hu : upTo.Ok x.stream.length := h.drains i upTo (by rw [hpc]; rfl)
    simp only
    split
    · refine h.setPc _ (fun hc => by cases hc) (fun u hw => ?_) i
      cases hw
      exact hu
    · refine ⟨h.ring, h.copy, h.order, h.wire, fun hzero => absurd hzero (Nat.succ_ne_zero _), h.queued, fun j => ?_,
        h.pushes, h.carried⟩
      change ∀ u, ((x.setPc i .wedged).pc j).upTo? = some u → u.Ok x.stream.length
      by_cases hj : j = i
      · rw [hj, setPc_self]
        exact fun _ hc => by cases hc
      · rw [setPc_of_ne hj]
        exact h.drains j
  | idle => exact h
  | drain _ => exact h
  | push => exact h
  | wedged => exact h

theorem giveUp (h : Inv c x q) (i : Nat) (hpushing : x.pushing = none) : ∃ q', Inv c (x.giveUp c i) q' := by
  unfold Ring.giveUp
  cases hpc : x.pc i with
  | wedged => exact ⟨[], (h.discard hpushing fun hzero => (h.lost hzero).2 i hpc).idle i⟩
  | idle => exact ⟨q, h⟩
  | drain _ => exact ⟨q, h⟩
  | push => exact ⟨q, h⟩
  | wait _ => exact ⟨q, h⟩

theorem length_le_stream (h : Inv c x q) : q.length ≤ x.stream.length := by
  rw [← h.order, List.length_append, List.length_append]
  omega

theorem makeRoom (h : Inv c x q) (i : Nat) {needed : BitVec 32} (hneeded : needed.toNat < c.size) :
    Inv c (x.makeRoom c i needed) q := by
  unfold Ring.makeRoom
  split
  · exact h
  next hlack =>
    have hspace := not_le.mp (not_or.mp hlack).1
    refine h.setPc _ (fun hc => by cases hc) (fun u hw => ?_) i
    cases hw
    have hused := toNat_used h.ring
    have hle := h.length_le_stream
    have hfree := h.ring.free
    have hlt := needed.isLt
    have hsum : needed.toNat - x.space c ≤ q.length := by
      rw [Ring.space, hused]
      omega
    refine ⟨?_, ?_⟩
    · apply BitVec.eq_of_toNat_eq
      rw [h.queued]
      simp only [BitVec.toNat_add, BitVec.toNat_sub, BitVec.toNat_ofNat, hused]
      have hq : q.length < 2 ^ 32 := hused ▸ (x.used c).isLt
      omega
    · simp only [hused]
      omega

theorem roomWant (h : Inv c x q) (needed : BitVec 32) : Inv c (x.roomWant c needed) q := by
  unfold Ring.roomWant
  split
  · exact h
  split
  · exact h.with_roomWanted needed
  · exact h

theorem isr (h : Inv c x q) (n : Nat) (hpushing : x.pushing = none) : ∃ q', Inv c (x.isr c n) q' := by
  obtain ⟨q', hq', -⟩ := h.sendSome n hpushing
  refine ⟨q', ?_⟩
  unfold Ring.isr
  generalize x.sendSome c n = y at hq'
  have hirq : Inv c (if y.tail = y.head then { y with irqOn := false } else y) q' := by
    split
    · exact hq'.with_irqOn false
    · exact hq'
  dsimp only
  generalize (if y.tail = y.head then { y with irqOn := false } else y) = z at hirq
  split
  · exact hirq.with_roomWanted 0
  · exact hirq

theorem flushSync (h : Inv c x q) (n : Nat) (hpushing : x.pushing = none) : ∃ q', Inv c (x.flushSync c n) q' := by
  obtain ⟨q', hq', hp⟩ := (h.with_irqOn false).sendSome n hpushing
  unfold Ring.flushSync
  simp only
  split
  · exact ⟨q', hq'⟩
  · exact ⟨[], hq'.with_gaveUp.discard hp (Nat.succ_ne_zero _)⟩

theorem reprime (h : Inv c x q) : Inv c (x.reprime c) q := by
  unfold Ring.reprime
  split
  · exact h
  · exact h.beginInsert _ none

theorem step (h : Inv c x q) {o : Op} (ho : o.Legal c x) (htimely : o.Timely x) : ∃ q', Inv c (x.step c o) q' := by
  cases o with
  | insertLine i l => exact ⟨q, h.beginInsert l (some i)⟩
  | endInsert slotFree => exact h.endInsert slotFree
  | drainStep i slotFree => exact h.drainStep i slotFree htimely
  | endPush => exact ⟨q, h.endPush⟩
  | pollSlot i found => exact ⟨q, h.pollSlot i found⟩
  | giveUp i => exact h.giveUp i ho
  | makeRoom i needed => exact ⟨q, h.makeRoom i ho.2⟩
  | roomWant needed => exact ⟨q, h.roomWant needed⟩
  | isr n => exact h.isr n ho
  | flushSync n => exact h.flushSync n ho
  | reprime => exact ⟨q, h.reprime⟩

end Inv

theorem inv_init (c : Config) (cell : Nat → BitVec 8) : Inv c { cell := cell } [] :=
  ⟨Queued.empty (size_pos c), fun _ hc => (by cases hc), rfl, rfl, fun _ => ⟨fun _ hg => (by cases hg),
    fun _ hc => (by cases hc)⟩, rfl, fun _ _ hc => (by cases hc), fun _ hc => (by cases hc), fun _ hc => (by cases hc)⟩

theorem Reachable.inv (h : Reachable c x) : ∃ q, Inv c x q := by
  induction h with
  | init cell => exact ⟨[], inv_init c cell⟩
  | step _ ho htimely ih =>
    obtain ⟨q, hq⟩ := ih
    exact hq.step ho htimely

/-- What the device got, and what the ring counts. -/
structure Streams (c : Config) (x : Ring) : Prop where
  /-- Every byte of the lines is gone, in a producer's hand or held, in this order. -/
  order : x.log.gone.map Prod.fst ++ x.inHand ++ x.held c = x.stream
  /-- The device got what left the ring and was not discarded. -/
  wire : x.log.wire = (x.log.gone.filter Prod.snd).map Prod.fst
  lost : x.log.gaveUp = 0 → x.log.wire ++ x.inHand ++ x.held c = x.stream
  used : (x.used c).toNat = (x.held c).length
  queued : x.queued = BitVec.ofNat 32 x.stream.length
  sent : x.queued - x.used c = BitVec.ofNat 32 (x.log.gone.length + x.inHand.length)

theorem Inv.streams (h : Inv c x q) : Streams c x := by
  have hheld := held_eq h.ring
  have horder : x.log.gone.map Prod.fst ++ x.inHand ++ x.held c = x.stream := by
    rw [hheld, List.append_assoc]
    exact h.order
  refine ⟨horder, h.wire, fun hzero => ?_, by rw [hheld]; exact toNat_used h.ring, h.queued, ?_⟩
  · have hall : x.log.gone.filter Prod.snd = x.log.gone := List.filter_eq_self.mpr (h.lost hzero).1
    rw [h.wire, hall]
    exact horder
  · have hlen := congrArg List.length h.order
    have hused := toNat_used h.ring
    simp only [List.length_append, List.length_map] at hlen
    apply BitVec.eq_of_toNat_eq
    rw [h.queued, ← hlen, BitVec.toNat_sub, BitVec.toNat_ofNat, BitVec.toNat_ofNat, hused]
    have hq : q.length < 2 ^ 32 := hused ▸ (x.used c).isLt
    omega

/-- The bytes pushed are the accepted lines one after the other, less what a poll that gave up has discarded. -/
theorem console_streams (h : Reachable c x) : Streams c x := by
  obtain ⟨q, hq⟩ := h.inv
  exact hq.streams

/-- The ring of sixteen bytes of a chip without a transmit interrupt. -/
def polled : Config := ⟨4, by decide, false⟩

/-- A line of a letter and a line end: the insert sends the letter, and its producer the return that is put before the
line end. -/
theorem console_streams_letter : ∃ x, Reachable polled x ∧ x.log.wire = [97, 13] ∧ x.held polled = [10] ∧ Streams polled x := by
  have hinit : Reachable polled { cell := fun _ => 0 } := .init _
  have hline := hinit.step (o := .insertLine 0 ⟨[97, 10], true⟩) ⟨rfl, by simp, by simp⟩ trivial
  have hsent := hline.step (o := .endInsert true) trivial trivial
  have hdrain := hsent.step (o := .drainStep 0 true) trivial (fun upTo hu => by cases hu; decide)
  have hpush := hdrain.step (o := .endPush) trivial trivial
  exact ⟨_, hpush, rfl, by decide, console_streams hpush⟩

end KickOS.Tx
