import KickOS.Usb.Model

/-! The control transfers over whole runs: what a pass finds belongs to the request under way, as long as no completion
comes with a new request. -/

namespace KickOS.Usb
open Function (update update_of_ne update_self)

variable {descriptor : BitVec 16 → List (BitVec 8)} {x y : Sys}

def queued (inBuf : Option Packet) (k : Nat) : List (List (BitVec 8) × Bool) :=
  match inBuf with
  | some p => if p.req = k then [(p.bytes, p.pid)] else []
  | none => []

def count (bytes : List (BitVec 8)) (want : Nat) : Nat := ((bytes.take want).length + 63) / 64 + if Open bytes want then 1 else 0

/-- The data stage with `j` packets queued. -/
structure Pumped (x : Sys) (bytes : List (BitVec 8)) (want j : Nat) : Prop where
  packets : x.log.sent x.log.cur ++ queued x.inBuf x.log.cur = (List.range j).map (chunk (bytes.take want))
  le : j ≤ count bytes want
  rest : x.rest = (bytes.take want).drop (64 * j)
  pid : x.pid = (j % 2 == 0)
  zlp : x.zlp = decide (Open bytes want ∧ j < count bytes want)
  ne : bytes.take want ≠ []

/-- The request an address was set for: the host has taken its status packet, and nothing more is queued for it. -/
structure Addressed (log : Log) (inBuf : Option Packet) (e : Nat × BitVec 8) : Prop where
  le : e.1 ≤ log.cur
  setup : ∃ s, log.setups e.1 = some s ∧ SetsAddress s e.2
  acted : (e.1, e.1) ∈ log.acted
  sent : log.sent e.1 = [([], true)]
  queued : queued inBuf e.1 = []

/-- What holds of the requests in every state. -/
structure Base (log : Log) (inBuf : Option Packet) (address : BitVec 8) : Prop where
  acted : ∀ e ∈ log.acted, e.1 = e.2
  sent : ∀ k bytes want, log.asked k = some (bytes, want) → log.sent k ++ queued inBuf k <+: plan bytes want
  finished : ∀ k, log.finished k → (∃ bytes want, log.asked k = some (bytes, want) ∧ log.sent k = plan bytes want) ∧
    queued inBuf k = []
  addressed : ∀ e ∈ log.addressed, Addressed log inBuf e
  address : address = (log.addressed.head?.map Prod.snd).getD 0
  fresh : ∀ k, log.cur < k → log.asked k = none ∧ log.sent k = [] ∧ log.finished k = false
  tag : ∀ p, inBuf = some p → p.req ≤ log.cur

def Log.Underway (log : Log) : Prop := log.finished log.cur = false ∧ ∀ e ∈ log.addressed, e.1 ≠ log.cur

/-- The request under way has its packets, and no other one is taken for it. -/
structure Inv (x : Sys) : Prop where
  base : Base x.log x.inBuf x.address
  underway : x.ep0 ≠ .idle → x.log.Underway
  inTag : x.ep0 = .inData ∨ x.ep0 = .inStatus →
    (∀ p, x.inBuf = some p → p.req = x.log.cur) ∧ ∀ k, x.inDone = some k → k = x.log.cur ∧ x.inBuf = none
  outTag : x.ep0 = .outData →
    x.log.asked x.log.cur = none ∧ (∀ k, x.outBuf = some k → k = x.log.cur) ∧ ∀ k d, x.outDone = some (k, d) → k = x.log.cur
  silent : x.ep0 = .outData → x.log.sent x.log.cur ++ queued x.inBuf x.log.cur = []
  status : x.ep0 = .inStatus → x.log.sent x.log.cur ++ queued x.inBuf x.log.cur = [([], true)]
  addr : x.ep0 = .inStatus → x.addrPending → ∃ s, x.log.setups x.log.cur = some s ∧ SetsAddress s x.pendingAddr
  data : x.ep0 = .inData → ∃ bytes want j, x.log.asked x.log.cur = some (bytes, want) ∧ Pumped x bytes want j

theorem Inv.kept (h : Inv x) (hask : ∀ k, x.log.asked k = (x.log.setups k).bind (owed descriptor (x.log.found k))) :
    Kept descriptor x where
  acted := h.base.acted
  asked := hask
  sent k bytes want hk := (List.prefix_append ..).trans (h.base.sent k bytes want hk)
  finished k hk := (h.base.finished k hk).1
  addressed e he := ⟨(h.base.addressed e he).setup, (h.base.addressed e he).acted, (h.base.addressed e he).sent⟩
  address := h.base.address

theorem inv_init : Inv {} where
  base := {
    acted := fun _ he => absurd he List.not_mem_nil
    sent := fun _ _ _ hk => absurd hk (by simp)
    finished := fun _ hk => absurd hk (by simp)
    addressed := fun _ he => absurd he List.not_mem_nil
    address := rfl
    fresh := fun _ _ => ⟨rfl, rfl, rfl⟩
    tag := fun _ hp => absurd hp (by simp) }
  underway h := absurd rfl h
  inTag h := absurd h (by simp)
  outTag h := absurd h (by simp)
  silent h := absurd h (by simp)
  status h := absurd h (by simp)
  addr h := absurd h (by simp)
  data h := absurd h (by simp)

/-! ### Packets -/

theorem range_isPre {bytes : List (BitVec 8)} {want j : Nat} (hj : j ≤ count bytes want) :
    (List.range j).map (chunk (bytes.take want)) <+: plan bytes want := by
  have hsplit : List.range (count bytes want) = List.range j ++ (List.range (count bytes want - j)).map (j + ·) := by
    rw [← List.range_add, Nat.add_sub_of_le hj]
  have hplan : plan bytes want = (List.range (count bytes want)).map (chunk (bytes.take want)) := rfl
  rw [hplan, hsplit, List.map_append]
  exact List.prefix_append ..

section Pump

variable {bytes : List (BitVec 8)} {want j : Nat}

theorem open_count (ho : Open bytes want) : (bytes.take want).length % 64 = 0 ∧
    count bytes want = (bytes.take want).length / 64 + 1 := by
  obtain ⟨hlt, hmod⟩ := ho
  have hlen : (bytes.take want).length = bytes.length := by
    rw [List.length_take]
    omega
  unfold count
  rw [if_pos ⟨hlt, hmod⟩, hlen]
  omega

theorem goes_on (hj : j ≤ count bytes want) : (bytes.take want).drop (64 * j) ≠ [] ∨
    (Open bytes want ∧ j < count bytes want) ↔ j < count bytes want := by
  have hne : (bytes.take want).drop (64 * j) ≠ [] ↔ 64 * j < (bytes.take want).length := by
    rw [Ne, List.drop_eq_nil_iff]
    omega
  rw [hne]
  by_cases ho : Open bytes want
  · obtain ⟨h1, h2⟩ := open_count ho
    constructor
    · rintro (h | h)
      · omega
      · exact h.2
    · exact fun h => .inr ⟨ho, h⟩
  · have hcount : count bytes want = ((bytes.take want).length + 63) / 64 := by
      unfold count
      rw [if_neg ho, Nat.add_zero]
    constructor
    · rintro (h | h)
      · omega
      · exact absurd h.1 ho
    · intro h
      exact .inl (by omega)

theorem pumped_pump (hs : x.log.sent x.log.cur = (List.range j).map (chunk (bytes.take want))) (hj : j < count bytes want)
    (hr : x.rest = (bytes.take want).drop (64 * j)) (hp : x.pid = (j % 2 == 0))
      (hz : x.zlp = decide (Open bytes want ∧ x.rest ≠ []))
    (hne : bytes.take want ≠ []) : Pumped x.ep0PumpIn bytes want (j + 1) := by
  have hlen : x.rest.length = (bytes.take want).length - 64 * j := by rw [hr, List.length_drop]
  refine ⟨?_, hj, ?_, ?_, ?_, hne⟩
  · have hq : queued x.ep0PumpIn.inBuf x.log.cur = [(x.rest.take 64, x.pid)] := if_pos rfl
    have hlog : x.ep0PumpIn.log = x.log := rfl
    rw [hlog, hq, hs, List.range_succ, List.map_append, List.map_singleton, chunk, hr, hp]
  · have hrest : x.ep0PumpIn.rest = x.rest.drop 64 := rfl
    rw [hrest, hr, List.drop_drop, Nat.mul_succ]
  · have hpid : x.ep0PumpIn.pid = !x.pid := rfl
    rw [hpid, hp]
    rcases Nat.mod_two_eq_zero_or_one j with h0 | h0
    · have h1 : (j + 1) % 2 = 1 := by omega
      rw [h0, h1]
      rfl
    · have h1 : (j + 1) % 2 = 0 := by omega
      rw [h0, h1]
      rfl
  · have hzlp : x.ep0PumpIn.zlp = if x.rest.drop 64 = [] ∧ (x.rest.take 64).length ≠ 64 then false else x.zlp := rfl
    rw [hzlp, hz]
    by_cases ho : Open bytes want
    · obtain ⟨h1, h2⟩ := open_count ho
      have hnil : x.rest ≠ [] ↔ x.rest.length ≠ 0 := by rw [Ne, ← List.length_eq_zero_iff]
      simp only [ho, true_and, hnil, List.drop_eq_nil_iff, List.length_take]
      split
      next h =>
        symm
        rw [decide_eq_false_iff_not]
        omega
      next h =>
        rw [decide_eq_decide]
        omega
    · simp [ho]

end Pump

theorem Pumped.same {bytes : List (BitVec 8)} {want j : Nat} (h : Pumped x bytes want j)
    (hq : y.log.sent y.log.cur ++ queued y.inBuf y.log.cur = x.log.sent x.log.cur ++ queued x.inBuf x.log.cur)
      (hr : y.rest = x.rest)
    (hp : y.pid = x.pid) (hz : y.zlp = x.zlp) : Pumped y bytes want j :=
  ⟨hq.trans h.packets, h.le, hr.trans h.rest, hp.trans h.pid, hz.trans h.zlp, h.ne⟩

theorem Inv.data_same (h : Inv x) (hask : y.log.asked y.log.cur = x.log.asked x.log.cur)
    (hq : y.log.sent y.log.cur ++ queued y.inBuf y.log.cur = x.log.sent x.log.cur ++ queued x.inBuf x.log.cur)
      (hr : y.rest = x.rest)
    (hp : y.pid = x.pid) (hz : y.zlp = x.zlp) (hep : x.ep0 = .inData) :
    ∃ bytes want j, y.log.asked y.log.cur = some (bytes, want) ∧ Pumped y bytes want j := by
  obtain ⟨bytes, want, j, hask', hpumped⟩ := h.data hep
  exact ⟨bytes, want, j, hask.trans hask', hpumped.same hq hr hp hz⟩

/-! ### The requests -/

section Queue

variable {log : Log} {inBuf : Option Packet} {address : BitVec 8}

theorem Base.queue (h : Base log inBuf address) {bytes : List (BitVec 8)} {pid : Bool} (hon : log.Underway)
    (hpre : ∀ b w, log.asked log.cur = some (b, w) → log.sent log.cur ++ [(bytes, pid)] <+: plan b w) :
    Base log (some ⟨log.cur, bytes, pid⟩) address where
  acted := h.acted
  sent k b w hk := by
    by_cases hc : log.cur = k
    · subst hc
      have hq : queued (some ⟨log.cur, bytes, pid⟩) log.cur = [(bytes, pid)] := if_pos rfl
      rw [hq]
      exact hpre b w hk
    · have hq : queued (some ⟨log.cur, bytes, pid⟩) k = [] := if_neg hc
      rw [hq, List.append_nil]
      exact (List.prefix_append ..).trans (h.sent k b w hk)
  finished k hk := by
    have hne : log.cur ≠ k := fun heq => absurd (hon.1.symm.trans (heq ▸ hk)) (by simp)
    exact ⟨(h.finished k hk).1, if_neg hne⟩
  addressed e he := { h.addressed e he with queued := if_neg (hon.2 e he).symm }
  address := h.address
  fresh := h.fresh
  tag p hp := by
    cases hp
    exact le_rfl

theorem Base.empty (h : Base log inBuf address) : Base log none address where
  acted := h.acted
  sent k b w hk := by
    have hq : queued none k = [] := rfl
    rw [hq, List.append_nil]
    exact (List.prefix_append ..).trans (h.sent k b w hk)
  finished k hk := ⟨(h.finished k hk).1, rfl⟩
  addressed e he := { h.addressed e he with queued := rfl }
  address := h.address
  fresh := h.fresh
  tag p hp := absurd hp (by simp)

theorem Base.act (h : Base log inBuf address) : Base { log with acted := (log.cur, log.cur) :: log.acted } inBuf address where
  acted e he := by
    rcases List.mem_cons.1 he with rfl | he
    · rfl
    · exact h.acted e he
  sent := h.sent
  finished := h.finished
  addressed e he := { h.addressed e he with acted := List.mem_cons_of_mem _ (h.addressed e he).acted }
  address := h.address
  fresh := h.fresh
  tag := h.tag

theorem Base.next (h : Base log inBuf address) (s : Setup) (found : Nat → BitVec 8 × List (BitVec 8)) :
    Base { log with cur := log.cur + 1, setups := update log.setups (log.cur + 1) (some s), found := found } inBuf address where
  acted := h.acted
  sent := h.sent
  finished := h.finished
  addressed e he := by
    obtain ⟨hle, ⟨s', hs', hset⟩, hacted, hsent, hq⟩ := h.addressed e he
    refine ⟨hle.trans (Nat.le_succ _), ⟨s', ?_, hset⟩, hacted, hsent, hq⟩
    dsimp only
    rw [update_of_ne (by omega)]
    exact hs'
  address := h.address
  fresh k hk := h.fresh k ((Nat.lt_succ_self _).trans hk)
  tag p hp := (h.tag p hp).trans (Nat.le_succ _)

theorem Base.ask (h : Base log inBuf address) (hsent : log.sent log.cur = []) (hq : queued inBuf log.cur = [])
    (hfin : log.finished log.cur = false) (bytes : List (BitVec 8)) (want : Nat) :
    Base { log with asked := update log.asked log.cur (some (bytes, want)) } inBuf address where
  acted := h.acted
  sent k b w hk := by
    by_cases hc : k = log.cur
    · subst hc
      dsimp only
      rw [hsent, hq]
      exact List.nil_prefix
    · dsimp only at hk
      rw [update_of_ne hc] at hk
      exact h.sent k b w hk
  finished k hk := by
    have hc : k ≠ log.cur := fun heq => absurd (hfin.symm.trans (heq ▸ hk)) (by simp)
    dsimp only
    rw [update_of_ne hc]
    exact h.finished k hk
  addressed e he := { h.addressed e he with }
  address := h.address
  fresh k hk := by
    have hc : k ≠ log.cur := fun heq => absurd hk (by rw [heq]; exact Nat.lt_irrefl _)
    dsimp only
    rw [update_of_ne hc]
    exact h.fresh k hk
  tag := h.tag

theorem Base.finish (h : Base log none address) {bytes : List (BitVec 8)} {want : Nat}
    (hask : log.asked log.cur = some (bytes, want)) (hsent : log.sent log.cur = plan bytes want) :
    Base { log with finished := update log.finished log.cur true } none address where
  acted := h.acted
  sent := h.sent
  finished k hk := by
    by_cases hc : k = log.cur
    · subst hc
      exact ⟨⟨bytes, want, hask, hsent⟩, rfl⟩
    · dsimp only at hk
      rw [update_of_ne hc] at hk
      exact h.finished k hk
  addressed e he := { h.addressed e he with }
  address := h.address
  fresh k hk := by
    have hc : k ≠ log.cur := fun heq => absurd hk (by rw [heq]; exact Nat.lt_irrefl _)
    dsimp only
    rw [update_of_ne hc]
    exact h.fresh k hk
  tag := h.tag

theorem Base.setAddress (h : Base log inBuf address) {s : Setup} {a : BitVec 8} (hs : log.setups log.cur = some s)
    (ha : SetsAddress s a) (hacted : (log.cur, log.cur) ∈ log.acted) (hsent : log.sent log.cur = [([], true)])
    (hq : queued inBuf log.cur = []) : Base { log with addressed := (log.cur, a) :: log.addressed } inBuf a where
  acted := h.acted
  sent := h.sent
  finished := h.finished
  addressed e he := by
    rcases List.mem_cons.1 he with rfl | he
    · exact ⟨le_rfl, ⟨s, hs, ha⟩, hacted, hsent, hq⟩
    · exact { h.addressed e he with }
  address := rfl
  fresh := h.fresh
  tag := h.tag

theorem Base.taken {p : Packet} (h : Base log (some p) address) :
    Base { log with sent := update log.sent p.req (log.sent p.req ++ [(p.bytes, p.pid)]) } none address := by
  have hself : queued (some p) p.req = [(p.bytes, p.pid)] := if_pos rfl
  have hother {k : Nat} (hk : k ≠ p.req) : queued (some p) k = [] := if_neg (Ne.symm hk)
  refine ⟨h.acted, fun k b w hk => ?_, fun k hk => ?_, fun e he => ?_, h.address, fun k hk => ?_, fun p hp => absurd hp (by simp)⟩
  · have hpre := h.sent k b w hk
    have hnone : queued none k = [] := rfl
    rw [hnone, List.append_nil]
    by_cases hc : k = p.req
    · subst hc
      dsimp only
      rw [update_self, ← hself]
      exact hpre
    · dsimp only
      rw [update_of_ne hc]
      exact (List.prefix_append ..).trans hpre
  · obtain ⟨hall, hq⟩ := h.finished k hk
    have hc : k ≠ p.req := fun heq => absurd hq (by rw [heq, hself]; simp)
    dsimp only
    rw [update_of_ne hc]
    exact ⟨hall, rfl⟩
  · obtain ⟨hle, hset, hacted, hsent, hq⟩ := h.addressed e he
    have hc : e.1 ≠ p.req := fun heq => absurd hq (by rw [heq, hself]; simp)
    exact ⟨hle, hset, hacted, (update_of_ne hc ..).trans hsent, rfl⟩
  · have hle := h.tag p rfl
    have hc : k ≠ p.req := fun heq => absurd hk (by rw [heq]; exact Nat.not_lt.2 hle)
    dsimp only
    rw [update_of_ne hc]
    exact h.fresh k hk

end Queue

theorem inv_idle (h : Base x.log x.inBuf x.address) (hep : x.ep0 = .idle) : Inv x where
  base := h
  underway h0 := absurd hep h0
  inTag h0 := by
    rcases h0 with h0 | h0
    · exact absurd (hep.symm.trans h0) (by simp)
    · exact absurd (hep.symm.trans h0) (by simp)
  outTag h0 := absurd (hep.symm.trans h0) (by simp)
  silent h0 := absurd (hep.symm.trans h0) (by simp)
  status h0 := absurd (hep.symm.trans h0) (by simp)
  addr h0 := absurd (hep.symm.trans h0) (by simp)
  data h0 := absurd (hep.symm.trans h0) (by simp)

theorem inv_ack (h : Base x.log x.inBuf x.address) (hask : x.log.asked x.log.cur = none) (hon : x.log.Underway)
    (hsent : x.log.sent x.log.cur = []) (hpid : x.pid = true) (hdone : x.inDone = none)
    (haddr : x.addrPending → ∃ s, x.log.setups x.log.cur = some s ∧ SetsAddress s x.pendingAddr) :
    Inv x.ep0Ack where
  base := h.queue hon fun b w hk => absurd (hask.symm.trans hk) (by simp)
  underway _ := hon
  inTag _ := by
    refine ⟨fun p hp => ?_, fun k hk => absurd (hdone.symm.trans hk) (by simp)⟩
    cases hp
    rfl
  outTag h0 := absurd h0 (by simp [Sys.ep0Ack, Sys.ep0In])
  silent h0 := absurd h0 (by simp [Sys.ep0Ack, Sys.ep0In])
  status _ := by
    have hq : queued x.ep0Ack.inBuf x.log.cur = [([], x.pid)] := if_pos rfl
    have hlog : x.ep0Ack.log = x.log := rfl
    rw [hlog, hq, hsent, hpid]
    rfl
  addr _ ha := haddr ha
  data h0 := absurd h0 (by simp [Sys.ep0Ack, Sys.ep0In])

theorem inv_pump (h : Base x.log x.inBuf x.address) (hep : x.ep0 = .inData) (hon : x.log.Underway) (hdone : x.inDone = none)
    {bytes : List (BitVec 8)} {want j : Nat} (hask : x.log.asked x.log.cur = some (bytes, want))
      (hp : Pumped x.ep0PumpIn bytes want (j + 1)) :
    Inv x.ep0PumpIn where
  base := by
    refine h.queue hon fun b w hk => ?_
    cases hask.symm.trans hk
    have hq : queued x.ep0PumpIn.inBuf x.log.cur = [(x.rest.take 64, x.pid)] := if_pos rfl
    have hpackets := hp.packets
    have hlog : x.ep0PumpIn.log = x.log := rfl
    rw [hlog, hq] at hpackets
    rw [hpackets]
    exact range_isPre hp.le
  underway _ := hon
  inTag _ := by
    refine ⟨fun p hp => ?_, fun k hk => absurd (hdone.symm.trans hk) (by simp)⟩
    cases hp
    rfl
  outTag h0 := absurd (hep.symm.trans h0) (by simp)
  silent h0 := absurd (hep.symm.trans h0) (by simp)
  status h0 := absurd (hep.symm.trans h0) (by simp)
  addr h0 := absurd (hep.symm.trans h0) (by simp)
  data _ := ⟨bytes, want, j + 1, hask, hp⟩

/-- A request taken up: nothing was sent for it yet. -/
structure Taken (x : Sys) : Prop where
  base : Base x.log x.inBuf x.address
  idle : x.ep0 = .idle
  pid : x.pid = true
  asked : x.log.asked x.log.cur = none
  sent : x.log.sent x.log.cur = []
  underway : x.log.Underway
  older : ∀ p, x.inBuf = some p → p.req ≠ x.log.cur

theorem Taken.queued (h : Taken x) : queued x.inBuf x.log.cur = [] := by
  unfold KickOS.Usb.queued
  split
  next p hp => exact if_neg (h.older p hp)
  next => rfl

theorem taken_send (h : Taken x) {bytes : List (BitVec 8)} (hne : bytes ≠ []) {want : Nat} (hw : want ≠ 0)
    (hdone : x.inDone = none) : Inv (x.ep0Send bytes want) := by
  unfold Sys.ep0Send
  rw [if_neg hw]
  dsimp only
  have htake : bytes.take (min bytes.length want) = bytes.take want := by
    rw [List.take_eq_take_iff]
    omega
  have hlen : (bytes.take want).length = min bytes.length want := by
    rw [List.length_take, min_comm]
  have hpos : 0 < bytes.length := List.length_pos_iff.2 hne
  have hsome : bytes.take want ≠ [] := List.length_pos_iff.1 (by omega)
  rw [htake]
  have hask : update x.log.asked x.log.cur (some (bytes, want)) x.log.cur = some (bytes, want) := update_self ..
  refine inv_pump (j := 0) (h.base.ask h.sent h.queued h.underway.1 bytes want) rfl h.underway hdone hask
    (pumped_pump (h.sent.trans rfl) ?_ rfl h.pid ?_ hsome)
  · unfold count
    omega
  · dsimp only
    rw [decide_eq_decide]
    unfold Open
    constructor
    · intro h0
      exact ⟨by omega, hsome⟩
    · intro h0
      omega

theorem taken_perform (h : Taken x) {s : Setup} (hset : x.log.setups x.log.cur = some s) {r : Reply} {want : Nat}
    (hin : x.inDone.isSome → ¬ r.Answers) (hout : x.outDone.isSome → r ≠ .receive) (hack : x.addrPending → ¬ r.Acks want)
    (haddr : ∀ a, r = .setAddress a → SetsAddress s a) (hsend : ∀ bytes, r = .send bytes → bytes ≠ []) :
      Inv (x.perform want r) := by
  have hnone (hr : r.Answers) : x.inDone = none := by
    cases hd : x.inDone with
    | none => rfl
    | some k => exact absurd hr (hin (by rw [hd]; rfl))
  have hacks (hr : r.Acks want) (ha : x.addrPending) : ∃ s, x.log.setups x.log.cur = some s ∧ SetsAddress s x.pendingAddr :=
    absurd hr (hack ha)
  cases r with
  | stall => exact inv_idle h.base.empty h.idle
  | ack => exact inv_ack h.base h.asked h.underway h.sent h.pid (hnone trivial) (hacks trivial)
  | setAddress a => exact inv_ack h.base h.asked h.underway h.sent h.pid (hnone trivial) fun _ => ⟨s, hset, haddr a rfl⟩
  | setConfiguration c => exact inv_ack h.base h.asked h.underway h.sent h.pid (hnone trivial) (hacks trivial)
  | send bytes =>
    by_cases hw : want = 0
    · have heq : x.perform want (.send bytes) = x.ep0Ack := if_pos hw
      rw [heq]
      exact inv_ack h.base h.asked h.underway h.sent h.pid (hnone trivial) (hacks hw)
    · exact taken_send h (hsend bytes rfl) hw (hnone trivial)
  | receive =>
    have hdone : x.outDone = none := by
      cases hd : x.outDone with
      | none => rfl
      | some d => exact absurd rfl (hout (by rw [hd]; rfl))
    refine ⟨h.base, fun _ => h.underway, fun h0 => absurd h0 (by simp [Sys.perform, Sys.ep0OutArm]),
      fun _ => ⟨h.asked, fun k hk => ?_, fun k d hk => ?_⟩, fun _ => ?_,
        fun h0 => absurd h0 (by simp [Sys.perform, Sys.ep0OutArm]),
      fun h0 => absurd h0 (by simp [Sys.perform, Sys.ep0OutArm]), fun h0 => absurd h0 (by simp [Sys.perform, Sys.ep0OutArm])⟩
    · cases hk
      rfl
    · exact absurd (hdone.symm.trans hk) (by simp)
    · exact (congrArg₂ _ h.sent h.queued).trans (List.append_nil _)

theorem reply_setAddress {s : Setup} {a : BitVec 8} (h : x.reply descriptor s = .setAddress a) : SetsAddress s a := by
  unfold Sys.reply answer at h
  split at h
  next htype =>
    unfold stdRequest at h
    split at h
    next hreq =>
      cases h
      exact ⟨htype, hreq, rfl⟩
    next => split_ifs at h
  next =>
    split at h
    next =>
      unfold classRequest at h
      split_ifs at h
    next => cases h

theorem reply_send {s : Setup} {bytes : List (BitVec 8)} (hl : x.lineCoding ≠ [])
    (h : x.reply descriptor s = .send bytes) : bytes ≠ [] := by
  unfold Sys.reply answer at h
  split at h
  next =>
    unfold stdRequest at h
    split_ifs at h with _ _ _ hd
    all_goals cases h
    · exact hd
    · simp
    · simp
    · simp
  next =>
    split at h
    next =>
      unfold classRequest at h
      split_ifs at h
      cases h
      exact hl
    next => cases h

theorem Inv.onSetup (h : Inv x) (hc : Clear descriptor x) (hl : x.lineCoding ≠ []) {s : Setup} (hs : x.setup = some s) :
    Inv (x.onSetup descriptor s) := by
  obtain ⟨hin, hout, hack⟩ := hc.setup s hs
  obtain ⟨hask, hsent, hfin⟩ := h.base.fresh (x.log.cur + 1) (Nat.lt_succ_self _)
  unfold Sys.onSetup
  refine taken_perform (s := s) ⟨h.base.next s _, rfl, rfl, hask, hsent, ⟨hfin, fun e he => ?_⟩,
    fun p hp heq => ?_⟩ (update_self ..) hin hout hack (fun a ha => reply_setAddress ha)
    (fun bytes hb => reply_send hl hb)
  · exact (Nat.lt_succ_of_le (h.base.addressed e he).le).ne
  · exact absurd (h.base.tag p hp) (by rw [heq]; exact Nat.not_succ_le_self _)

/-! ### The completions -/

theorem Inv.onEp0InDone (h : Inv x) {k : Nat} (hk : x.inDone = some k) :
    Inv (({ x with inDone := none } : Sys).onEp0InDone k) := by
  have hbase := h.base
  unfold Sys.onEp0InDone
  split
  next hep =>
    have hep : x.ep0 = .inData := hep
    obtain ⟨rfl, hbuf⟩ := (h.inTag (.inl hep)).2 k hk
    obtain ⟨bytes, want, j, hask, hp⟩ := h.data hep
    have hon : x.log.Underway := h.underway (by rw [hep]; simp)
    have hsent : x.log.sent x.log.cur = (List.range j).map (chunk (bytes.take want)) := by
      have hpackets := hp.packets
      rw [hbuf] at hpackets
      exact (List.append_nil _).symm.trans hpackets
    have hgoes := goes_on hp.le
    dsimp only
    split
    next hmore =>
      have hj : j < count bytes want := by
        refine hgoes.1 ?_
        rw [hp.rest, hp.zlp, decide_eq_true_eq] at hmore
        exact hmore
      refine inv_pump (hbase.act) hep hon rfl hask (pumped_pump hsent hj hp.rest hp.pid ?_ hp.ne)
      dsimp only [Sys.act]
      rw [hp.zlp]
      by_cases hnil : x.rest = []
      · simp [hnil]
      · simp [hnil, hj]
    next hmore =>
      have hj : j = count bytes want := by
        refine hp.le.antisymm (Nat.le_of_not_lt fun hlt => hmore ?_)
        rw [hp.rest, hp.zlp, decide_eq_true_eq]
        exact hgoes.2 hlt
      subst hj
      rw [hbuf] at hbase
      refine inv_idle ?_ rfl
      dsimp only [Sys.finish, Sys.act, Sys.ep0OutArm]
      rw [hbuf]
      exact hbase.act.finish hask hsent
  next hep =>
    have hep : x.ep0 = .inStatus := hep
    obtain ⟨rfl, hbuf⟩ := (h.inTag (.inr hep)).2 k hk
    split
    next ha =>
      obtain ⟨s, hs, hset⟩ := h.addr hep ha
      have hstatus := h.status hep
      have hq : queued x.inBuf x.log.cur = [] := by rw [hbuf]; rfl
      rw [hq, List.append_nil] at hstatus
      exact inv_idle (hbase.act.setAddress hs hset List.mem_cons_self hstatus hq) rfl
    next => exact inv_idle hbase.act rfl
  next hep => exact inv_idle hbase hep
  next hep =>
    have hep : x.ep0 = .outData := hep
    refine ⟨hbase, h.underway, fun h0 => ?_, h.outTag, h.silent, h.status, h.addr, fun h0 => absurd (hep.symm.trans h0) (by simp)⟩
    rcases h0 with h0 | h0
    · exact absurd (hep.symm.trans h0) (by simp)
    · exact absurd (hep.symm.trans h0) (by simp)

theorem Inv.onBuffersIn (h : Inv x) : Inv x.onBuffersIn := by
  unfold Sys.onBuffersIn
  split
  next k hk => exact h.onEp0InDone hk
  next => exact h

theorem Inv.onBuffersOut (h : Inv x) (hin : x.inDone = none) (ha : x.ep0 = .outData → x.outDone.isSome → x.addrPending = false) :
    Inv x.onBuffersOut := by
  unfold Sys.onBuffersOut
  split
  next k data hk =>
    unfold Sys.onEp0OutDone
    split
    next hep =>
      have hep : x.ep0 = .outData := hep
      obtain ⟨hask, -, hdone⟩ := h.outTag hep
      cases hdone k data hk
      have hpend : x.addrPending = false := ha hep (by rw [hk]; rfl)
      have hsent := (List.append_eq_nil_iff.1 (h.silent hep)).1
      exact inv_ack h.base.act hask (h.underway (by rw [hep]; simp)) hsent rfl hin fun h0 =>
        absurd (hpend.symm.trans h0) (by simp)
    next hep =>
      exact ⟨h.base, h.underway, h.inTag, fun h0 => absurd h0 hep, h.silent, h.status, h.addr, h.data_same rfl rfl rfl rfl rfl⟩
  next => exact h

section Frame

theorem perform_outData {want : Nat} {r : Reply} (hi : x.ep0 = .idle) (h : (x.perform want r).ep0 = .outData) : r = .receive := by
  cases r with
  | stall => exact absurd (hi.symm.trans h) (by simp)
  | ack => cases h
  | setAddress a => cases h
  | setConfiguration c => cases h
  | send bytes =>
    dsimp only [Sys.perform, Sys.ep0Send] at h
    split at h
    · cases h
    · cases h
  | receive => rfl

theorem perform_fields (want : Nat) (r : Reply) :
    (x.perform want r).outDone = x.outDone ∧ (x.perform want r).lineCoding = x.lineCoding := by
  cases r with
  | send bytes =>
    dsimp only [Sys.perform, Sys.ep0Send]
    split
    · exact ⟨rfl, rfl⟩
    · exact ⟨rfl, rfl⟩
  | _ => exact ⟨rfl, rfl⟩

/-- A pass over the IN completion leaves no other, and leaves a data stage of the host as it is. -/
theorem onBuffersIn_fields (x : Sys) : x.onBuffersIn.inDone = none ∧ x.onBuffersIn.outDone = x.outDone ∧
    x.onBuffersIn.lineCoding = x.lineCoding ∧ (x.onBuffersIn.ep0 = .outData → x.ep0 = .outData ∧
      x.onBuffersIn.addrPending = x.addrPending) := by
  unfold Sys.onBuffersIn
  split
  next k hk =>
    unfold Sys.onEp0InDone
    split
    next hep =>
      have hep : x.ep0 = .inData := hep
      dsimp only
      split
      · exact ⟨rfl, rfl, rfl, fun h0 => absurd (hep.symm.trans h0) (by simp)⟩
      · exact ⟨rfl, rfl, rfl, fun h0 => absurd h0 (by simp [Sys.finish, Sys.ep0OutArm])⟩
    next hep =>
      split
      · exact ⟨rfl, rfl, rfl, fun h0 => absurd h0 (by simp [Sys.setAddress])⟩
      · exact ⟨rfl, rfl, rfl, fun h0 => absurd h0 (by simp)⟩
    next hep => exact ⟨rfl, rfl, rfl, fun h0 => ⟨h0, rfl⟩⟩
    next hep => exact ⟨rfl, rfl, rfl, fun h0 => ⟨h0, rfl⟩⟩
  next hk => exact ⟨hk, rfl, rfl, fun h0 => ⟨h0, rfl⟩⟩

theorem onBuffersOut_coding (hl : x.lineCoding ≠ []) : x.onBuffersOut.lineCoding ≠ [] := by
  unfold Sys.onBuffersOut
  split
  next k data hk =>
    unfold Sys.onEp0OutDone
    split
    next =>
      dsimp only [Sys.ep0Ack, Sys.ep0In, Sys.act]
      split
      next hlen =>
        intro hnil
        have hzero := congrArg List.length hnil
        rw [List.length_take, List.length_nil] at hzero
        omega
      next => exact hl
    next => exact hl
  next => exact hl

end Frame

/-! ### Runs -/

theorem Inv.serviceIrq (h : Inv x) (hc : Clear descriptor x) (hl : x.lineCoding ≠ []) :
    Inv (x.serviceIrq descriptor) ∧ (x.serviceIrq descriptor).lineCoding ≠ [] := by
  -- what the setup leaves for the completions
  obtain ⟨y, hy, hinv, hcoding, hout⟩ : ∃ y, x.serviceIrq descriptor = y.onBuffersIn.onBuffersOut ∧ Inv y ∧ y.lineCoding ≠ [] ∧
      (y.ep0 = .outData → y.outDone.isSome → y.addrPending = false) := by
    unfold Sys.serviceIrq
    cases hs : x.setup with
    | none => exact ⟨x, rfl, h, hl, hc.buffers hs⟩
    | some s =>
      refine ⟨x.onSetup descriptor s, rfl, h.onSetup hc hl hs, ?_, fun hep hd => ?_⟩
      · unfold Sys.onSetup
        rw [(perform_fields ..).2]
        exact hl
      · unfold Sys.onSetup at hep hd
        rw [(perform_fields ..).1] at hd
        exact absurd (perform_outData rfl hep) ((hc.setup s hs).2.1 hd)
  obtain ⟨hin, hdone, hcode, hep⟩ := onBuffersIn_fields y
  rw [hy]
  refine ⟨hinv.onBuffersIn.onBuffersOut hin fun h0 h1 => ?_, onBuffersOut_coding (hcode ▸ hcoding)⟩
  obtain ⟨h2, h3⟩ := hep h0
  rw [h3]
  exact hout h2 (hdone ▸ h1)

theorem taken_packets {p : Packet} (hbuf : x.inBuf = some p) (k : Nat) :
    update x.log.sent p.req (x.log.sent p.req ++ [(p.bytes, p.pid)]) k ++ queued none k = x.log.sent k ++ queued x.inBuf k := by
  rw [hbuf]
  by_cases hk : k = p.req
  · subst hk
    simp [queued]
  · simp [queued, hk, Ne.symm hk]

theorem Inv.take (h : Inv x) {p : Packet} (hbuf : x.inBuf = some p) :
    Inv { x with
      inBuf := none
      inDone := some p.req
      log := { x.log with sent := update x.log.sent p.req (x.log.sent p.req ++ [(p.bytes, p.pid)]) } } where
  base := (hbuf ▸ h.base).taken
  underway := h.underway
  inTag h0 := by
    have hcur := (h.inTag h0).1 p hbuf
    refine ⟨fun p' hp' => absurd hp' (by simp), fun k hk => ?_⟩
    cases hk
    exact ⟨hcur, rfl⟩
  outTag := h.outTag
  silent h0 := (taken_packets hbuf x.log.cur).trans (h.silent h0)
  status h0 := (taken_packets hbuf x.log.cur).trans (h.status h0)
  addr := h.addr
  data := h.data_same rfl (taken_packets hbuf x.log.cur) rfl rfl rfl

theorem Inv.step (h : Inv x) (hl : x.lineCoding ≠ []) {op : Op} (hp : op = .pass → Clear descriptor x) :
    Inv (x.step descriptor op) ∧ (x.step descriptor op).lineCoding ≠ [] := by
  cases op with
  | setup s => exact ⟨⟨h.base, h.underway, h.inTag, h.outTag, h.silent, h.status, h.addr, h.data_same rfl rfl rfl rfl rfl⟩, hl⟩
  | take =>
    dsimp only [Sys.step]
    split
    next p hbuf => exact ⟨h.take hbuf, hl⟩
    next => exact ⟨h, hl⟩
  | give data =>
    dsimp only [Sys.step]
    split
    next k hbuf =>
      refine ⟨⟨h.base, h.underway, h.inTag, fun h0 => ?_, h.silent, h.status, h.addr, h.data_same rfl rfl rfl rfl rfl⟩, hl⟩
      obtain ⟨hask, harm, -⟩ := h.outTag h0
      refine ⟨hask, fun k' hk' => absurd hk' (by simp), fun k' d hk' => ?_⟩
      cases hk'
      exact harm k hbuf
    next => exact ⟨h, hl⟩
  | pass => exact h.serviceIrq (hp rfl) hl

theorem Runs.inv (h : Runs descriptor (Clear descriptor) x) : Inv x ∧ x.lineCoding ≠ [] := by
  induction h with
  | init => exact ⟨inv_init, by simp⟩
  | step op _ hp ih => exact ih.1.step ih.2 hp

/-! ### The answers -/

/-- What the log has of the SETUPs and of the answers: only a SETUP changes it. -/
def Log.heard (log : Log) : (Nat × (Nat → Option Setup)) × (Nat → BitVec 8 × List (BitVec 8)) ×
    (Nat → Option (List (BitVec 8) × Nat)) :=
  ((log.cur, log.setups), log.found, log.asked)

/-- The answers are those owed to the SETUPs. -/
structure Answered (descriptor : BitVec 16 → List (BitVec 8)) (log : Log) : Prop where
  ahead : ∀ k, log.cur < k → log.setups k = none
  asked : ∀ k, log.asked k = (log.setups k).bind (owed descriptor (log.found k))

theorem Answered.same (h : Answered descriptor x.log) (heq : y.log.heard = x.log.heard) : Answered descriptor y.log := by
  obtain ⟨⟨hcur, hsetups⟩, hfound, hasked⟩ : (y.log.cur = x.log.cur ∧ y.log.setups = x.log.setups) ∧ y.log.found = x.log.found ∧
      y.log.asked = x.log.asked := by simpa [Log.heard] using heq
  refine ⟨?_, ?_⟩
  · rw [hcur, hsetups]
    exact h.ahead
  · rw [hsetups, hfound, hasked]
    exact h.asked

theorem onBuffersIn_heard (x : Sys) : x.onBuffersIn.log.heard = x.log.heard := by
  unfold Sys.onBuffersIn
  split
  next k _ =>
    unfold Sys.onEp0InDone
    split
    · dsimp only
      split <;> rfl
    · split <;> rfl
    · rfl
    · rfl
  next => rfl

theorem onBuffersOut_heard (x : Sys) : x.onBuffersOut.log.heard = x.log.heard := by
  unfold Sys.onBuffersOut
  split
  next k data _ =>
    unfold Sys.onEp0OutDone
    split <;> rfl
  next => rfl

theorem perform_answered {s : Setup} {found : BitVec 8 × List (BitVec 8)} (hahead : ∀ k, x.log.cur < k → x.log.setups k = none)
    (hask : ∀ k, k ≠ x.log.cur → x.log.asked k = (x.log.setups k).bind (owed descriptor (x.log.found k)))
    (hnone : x.log.asked x.log.cur = none) (hset : x.log.setups x.log.cur = some s) (hfound : x.log.found x.log.cur = found) :
    Answered descriptor (x.perform s.wLength.toNat (answer descriptor found.1 found.2 s)).log := by
  have hkept : owed descriptor found s = none → Answered descriptor x.log := by
    intro hno
    refine ⟨hahead, fun k => ?_⟩
    by_cases hk : k = x.log.cur
    · rw [hk, hnone, hset, hfound, Option.bind_some, hno]
    · exact hask k hk
  cases hr : answer descriptor found.1 found.2 s with
  | stall => exact (hkept (by rw [owed, hr])).same rfl
  | ack => exact (hkept (by rw [owed, hr])).same rfl
  | setAddress a => exact (hkept (by rw [owed, hr])).same rfl
  | setConfiguration c => exact (hkept (by rw [owed, hr])).same rfl
  | receive => exact (hkept (by rw [owed, hr])).same rfl
  | send bytes =>
    by_cases hw : s.wLength.toNat = 0
    · have hno : owed descriptor found s = none := by simp [owed, hr, hw]
      have heq : x.perform s.wLength.toNat (.send bytes) = x.ep0Ack := if_pos hw
      rw [heq]
      exact (hkept hno).same rfl
    · have hsome : owed descriptor found s = some (bytes, s.wLength.toNat) := by simp [owed, hr, hw]
      have hlog : (x.perform s.wLength.toNat (.send bytes)).log =
          { x.log with asked := update x.log.asked x.log.cur (some (bytes, s.wLength.toNat)) } := by
        simp [Sys.perform, Sys.ep0Send, hw, Sys.ep0PumpIn, Sys.ep0In]
      rw [hlog]
      refine ⟨hahead, fun k => ?_⟩
      by_cases hk : k = x.log.cur
      · subst hk
        simp [hset, hfound, hsome]
      · simpa [hk] using hask k hk

theorem Answered.onSetup (h : Answered descriptor x.log) (s : Setup) : Answered descriptor (x.onSetup descriptor s).log := by
  have hcur := h.ahead (x.log.cur + 1) (Nat.lt_succ_self _)
  refine perform_answered (x := { x with
    setup := none
    log := { x.log with
      cur := x.log.cur + 1
      setups := update x.log.setups (x.log.cur + 1) (some s)
      found := update x.log.found (x.log.cur + 1) (x.config, x.lineCoding) }
    pid := true
    ep0 := .idle
    rest := []
    zlp := false }) (fun k hk => ?_) (fun k hk => ?_) ?_ (update_self ..) (update_self ..)
  · dsimp only at hk ⊢
    rw [update_of_ne (by omega)]
    exact h.ahead k (by omega)
  · dsimp only at hk ⊢
    rw [update_of_ne hk, update_of_ne hk]
    exact h.asked k
  · rw [h.asked, hcur]
    rfl

theorem Answered.step (h : Answered descriptor x.log) (op : Op) : Answered descriptor (x.step descriptor op).log := by
  cases op with
  | setup s => exact h
  | take =>
    dsimp only [Sys.step]
    split
    · exact h.same rfl
    · exact h
  | give data =>
    dsimp only [Sys.step]
    split
    · exact h
    · exact h
  | pass =>
    dsimp only [Sys.step, Sys.serviceIrq]
    refine Answered.same ?_ ((onBuffersOut_heard _).trans (onBuffersIn_heard _))
    split
    next s _ => exact h.onSetup s
    next => exact h

theorem Runs.answered {P : Sys → Prop} (h : Runs descriptor P x) : Answered descriptor x.log := by
  induction h with
  | init => exact ⟨fun _ _ => rfl, fun _ => rfl⟩
  | step op _ _ ih => exact ih.step op

theorem clear_of_setup (hi : x.inDone = none) (ho : x.outDone = none) (ha : x.addrPending = false) : Clear descriptor x where
  setup s _ := ⟨fun h => absurd h (by simp [hi]), fun h => absurd h (by simp [ho]), fun h => absurd h (by simp [ha])⟩
  buffers _ _ _ := ha

theorem clear_of_buffers (hs : x.setup = none) (ha : x.ep0 = .outData → x.addrPending = false) : Clear descriptor x where
  setup s h := absurd (hs.symm.trans h) (by simp)
  buffers _ hep _ := ha hep

/-- `GET_DESCRIPTOR` of up to 128 bytes. -/
def getDescriptor : Setup := ⟨0x80, 6, 0x200, 0, 128⟩

def fullPacket (_ : BitVec 16) : List (BitVec 8) := List.replicate 64 0

/-- `SET_CONFIGURATION` of 1, and `SET_ADDRESS` of 5. -/
def setConfiguration : Setup := ⟨0, 9, 1, 0, 0⟩

def setAddress : Setup := ⟨0, 5, 5, 0, 0⟩

end KickOS.Usb
