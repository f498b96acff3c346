import KickOS.Usb.Bulk

/-! Every byte that is pushed is in the ring, in flight, completed or lost, over every run of the link. A packet is
given up by the service and by the controller in one step, so the flags say what the controller holds, unless a
completion comes too late for its pass. -/

namespace KickOS.Usb.Bulk

variable {identity : List (BitVec 8)} {x y : Sys}

/-- The flags of the service and the buffer of the controller. -/
structure Link (x : Sys) : Prop where
  idle : x.log.flight = none ↔ x.txInflight = 0 ∧ x.zlpInflight = false
  identity : x.idInflight = true → x.txInflight ≠ 0
  empty : x.zlpInflight = true → x.txInflight = 0
  held : ∀ p, x.buf = some p → x.log.flight = some p ∧ x.done = none
  done : ∀ i, x.done = some i → (∃ p, x.log.flight = some p ∧ p.id = i) ∨ (x.log.flight = none ∧ x.pc.reported = true)
  fresh : ∀ p, x.log.flight = some p → p.id < x.log.handed.length ∧ p.id ∉ x.log.abandoned
  abandoned : ∀ i ∈ x.log.abandoned, i < x.log.handed.length
  acted : ∀ e ∈ x.log.acted, e.1 = e.2 ∧ e.1 ∉ x.log.abandoned ∧ e.1 < x.log.handed.length ∧
    ∀ p, x.log.flight = some p → e.1 ≠ p.id
  one : x.log.replaced = []

/-- The bytes. -/
structure Count (identity : List (BitVec 8)) (x : Sys) : Prop where
  ring : x.log.removed ++ x.ring = x.log.pushed
  handed : bytesOf (x.log.handed.filter fun p => p.kind ≠ .identity) = x.log.removed
  balance : x.log.removed.length = x.inflight + x.log.completed + x.log.lost
  lost : x.txLostLink = BitVec.ofNat 32 x.log.lost
  left : x.idLeft ≤ identity.length
  opens : x.configured = true → ∃ a b, x.log.stream = a ++ b ∧ (∀ p ∈ a, p.kind = .identity) ∧ (∀ p ∈ b, p.kind ≠ .identity) ∧
    bytesOf a = identity.take (identity.length - x.idLeft) ∧ (b ≠ [] → x.idLeft = 0)
  zlp : x.zlpInflight = false → (x.txZlp = true ↔ Full x.log.session)
  closed : x.zlpInflight = true → ¬ Full x.log.session

theorem link_init : Link {} := by
  refine ⟨by simp, by simp, by simp, by simp, by simp, by simp, by simp, by simp, rfl⟩

theorem not_full_nil : ¬ Full [] := by
  rintro ⟨p, hp, -⟩
  cases hp

theorem full_append {packets : List Packet} {p : Packet} : Full (packets ++ [p]) ↔ p.bytes.length = maxPacket := by
  simp [Full]

theorem count_init : Count identity {} := by
  refine ⟨rfl, rfl, rfl, rfl, Nat.zero_le _, by simp, fun _ => ?_, by simp⟩
  simp [not_full_nil]

/-! ### Giving up a packet -/

/-- The packet in flight is given up on both sides. -/
structure Abandoned (x y : Sys) : Prop where
  flags : y.txInflight = 0 ∧ y.zlpInflight = false ∧ y.idInflight = false ∧ y.txZlp = false
  buf : y.buf = none
  done : y.done = x.done
  ring : y.ring = x.ring
  counter : y.txLostLink = if x.idInflight then x.txLostLink else x.txLostLink + BitVec.ofNat 32 x.txInflight
  log : ∃ stream, y.log = { x.log with
    flight := none
    session := []
    stream := stream
    abandoned := x.log.flightId ++ x.log.abandoned
    lost := x.log.lost + x.inflight }

theorem abandoned_onBusReset (ev : Events) : Abandoned x { x.onBusReset with pc := .setup ev } :=
  ⟨⟨rfl, rfl, rfl, rfl⟩, rfl, rfl, rfl, rfl, _, rfl⟩

theorem abandoned_onRequest {r : Request} (hr : r.abandons = true) (s : Option Setup) (ev : Events) :
    Abandoned x { ({ x with setup := s } : Sys).onRequest identity r with pc := .buffers ev } := by
  cases r with
  | configure config =>
    unfold Sys.onRequest
    simp only
    split
    · exact ⟨⟨rfl, rfl, rfl, rfl⟩, rfl, rfl, rfl, rfl, _, rfl⟩
    · exact ⟨⟨rfl, rfl, rfl, rfl⟩, rfl, rfl, rfl, rfl, _, rfl⟩
  | clearHalt => exact ⟨⟨rfl, rfl, rfl, rfl⟩, rfl, rfl, rfl, rfl, _, rfl⟩
  | halt => cases hr
  | other => cases hr

theorem mem_flightId {log : Log} {i : Nat} : i ∈ log.flightId ↔ ∃ p, log.flight = some p ∧ p.id = i := by
  simp [Log.flightId]

theorem Link.abandon (h : Link x) (ha : Abandoned x y) (hpc : x.done.isSome → y.pc.reported = true) : Link y := by
  obtain ⟨⟨hin, hzlp, hid, -⟩, hbuf, hdone, -, -, stream, hlog⟩ := ha
  have hflight : y.log.flight = none := by rw [hlog]
  have hhanded : y.log.handed = x.log.handed := by rw [hlog]
  have habandoned : y.log.abandoned = x.log.flightId ++ x.log.abandoned := by rw [hlog]
  have hacted : y.log.acted = x.log.acted := by rw [hlog]
  refine ⟨?_, ?_, ?_, ?_, ?_, ?_, ?_, ?_, ?_⟩
  · simp [hflight, hin, hzlp]
  · simp [hid]
  · simp [hzlp]
  · simp [hbuf]
  · intro i hi
    rw [hdone] at hi
    exact .inr ⟨hflight, hpc (by rw [hi]; rfl)⟩
  · simp [hflight]
  · intro i hi
    rw [habandoned, List.mem_append, mem_flightId] at hi
    rw [hhanded]
    obtain ⟨p, hp, rfl⟩ | hi := hi
    · exact (h.fresh p hp).1
    · exact h.abandoned i hi
  · intro e he
    rw [hacted] at he
    obtain ⟨heq, hnot, hlt, hne⟩ := h.acted e he
    refine ⟨heq, ?_, by rw [hhanded]; exact hlt, by simp [hflight]⟩
    rw [habandoned, List.mem_append, mem_flightId]
    rintro (⟨p, hp, hpe⟩ | hi)
    · exact hne p hp hpe.symm
    · exact hnot hi
  · rw [hlog]
    exact h.one

theorem ofNat_lost (h : Count identity x) :
    (if x.idInflight then x.txLostLink else x.txLostLink + BitVec.ofNat 32 x.txInflight) =
      BitVec.ofNat 32 (x.log.lost + x.inflight) := by
  rw [h.lost, Sys.inflight]
  split
  · rfl
  · exact (BitVec.ofNat_add ..).symm

theorem Count.abandon (h : Count identity x) (ha : Abandoned x y) (hleft : y.idLeft ≤ identity.length)
    (hopens : y.configured = true → ∃ a b, y.log.stream = a ++ b ∧ (∀ p ∈ a, p.kind = .identity) ∧ (∀ p ∈ b, p.kind ≠ .identity) ∧
      bytesOf a = identity.take (identity.length - y.idLeft) ∧ (b ≠ [] → y.idLeft = 0)) : Count identity y := by
  obtain ⟨⟨hin, hzlp, hid, htx⟩, -, -, hring, hcounter, stream, hlog⟩ := ha
  refine ⟨?_, ?_, ?_, ?_, hleft, hopens, ?_, ?_⟩
  · rw [hlog, hring]
    exact h.ring
  · rw [hlog]
    exact h.handed
  · have hnone : y.inflight = 0 := by simp [Sys.inflight, hin]
    have hbalance := h.balance
    rw [hlog, hnone]
    simp only
    omega
  · rw [hcounter, hlog, ofNat_lost h]
  · intro _
    rw [hlog, htx]
    simp [not_full_nil]
  · rw [hzlp]
    simp

theorem Count.onBusReset (h : Count identity x) (ev : Events) : Count identity { x.onBusReset with pc := .setup ev } :=
  h.abandon (abandoned_onBusReset ev) (Nat.zero_le _) fun hc => (by cases hc)

/-- A configuration owes the whole identity again, and a halt that is cleared leaves the stream as it was. -/
theorem Count.onRequest {r : Request} (h : Count identity x) (hr : r.abandons = true) (s : Option Setup) (ev : Events) :
    Count identity { ({ x with setup := s } : Sys).onRequest identity r with pc := .buffers ev } := by
  have ha := @abandoned_onRequest identity x r hr s ev
  cases r with
  | configure config =>
    unfold Sys.onRequest at ha ⊢
    simp only at ha ⊢
    split at ha
    · rw [if_pos ‹_›]
      refine h.abandon ha le_rfl fun _ => ⟨[], [], rfl, by simp, by simp, ?_, by simp⟩
      simp [bytesOf]
    · rw [if_neg ‹_›]
      exact h.abandon ha h.left fun hc => (by cases hc)
  | clearHalt => exact h.abandon ha h.left h.opens
  | halt => cases hr
  | other => cases hr

/-! ### The buffers and the pump -/

theorem Link.act (h : Link x) {i : Nat} (hi : x.done = some i) {e : Nat × Nat} (he : e ∈ (x.log.flightId.map fun p => (i, p))) :
    ∃ p, x.log.flight = some p ∧ e = (p.id, p.id) := by
  obtain ⟨j, hj, rfl⟩ := List.mem_map.mp he
  obtain ⟨p, hp, rfl⟩ := mem_flightId.mp hj
  obtain ⟨q, hq, rfl⟩ | ⟨hnone, -⟩ := h.done i hi
  · rw [hp, Option.some.injEq] at hq
    exact ⟨p, hp, by rw [hq]⟩
  · rw [hp] at hnone
    cases hnone

theorem Link.onBuffers (h : Link x) (pc : Pc) : Link { x.onBuffers with pc := pc } := by
  unfold Sys.onBuffers
  cases hdone : x.done with
  | none =>
    refine ⟨h.idle, h.identity, h.empty, h.held, ?_, h.fresh, h.abandoned, h.acted, h.one⟩
    intro i hi
    rw [hdone] at hi
    cases hi
  | some i =>
    have hbuf : x.buf = none := by
      cases hbuf : x.buf with
      | none => rfl
      | some p =>
        rw [(h.held p hbuf).2] at hdone
        cases hdone
    have hacted : ∀ e ∈ (x.log.flightId.map fun p => (i, p)) ++ x.log.acted,
        e.1 = e.2 ∧ e.1 ∉ x.log.abandoned ∧ e.1 < x.log.handed.length := by
      intro e he
      obtain he | he := List.mem_append.mp he
      · obtain ⟨p, hp, rfl⟩ := h.act hdone he
        obtain ⟨hlt, hnot⟩ := h.fresh p hp
        exact ⟨rfl, hnot, hlt⟩
      · obtain ⟨heq, hnot, hlt, -⟩ := h.acted e he
        exact ⟨heq, hnot, hlt⟩
    simp only
    split
    next hzlp =>
      refine ⟨?_, h.identity, by simp, by simp [hbuf], by simp, by simp [Log.act], h.abandoned, ?_, h.one⟩
      · simp [Log.act, h.empty hzlp]
      · intro e he
        obtain ⟨heq, hnot, hlt⟩ := hacted e he
        exact ⟨heq, hnot, hlt, by simp [Log.act]⟩
    next hzlp =>
      refine ⟨?_, by simp, by simp [hzlp], by simp [hbuf], by simp, by simp [Log.act], h.abandoned, ?_, h.one⟩
      · simp [Log.act, hzlp]
      · intro e he
        obtain ⟨heq, hnot, hlt⟩ := hacted e he
        exact ⟨heq, hnot, hlt, by simp [Log.act]⟩

theorem Count.onBuffers (h : Count identity x) (pc : Pc) : Count identity { x.onBuffers with pc := pc } := by
  unfold Sys.onBuffers
  cases hdone : x.done with
  | none => exact { h with }
  | some i =>
    simp only
    have hbalance := h.balance
    split
    next hzlp =>
      refine ⟨h.ring, h.handed, hbalance, h.lost, h.left, h.opens, ?_, by simp⟩
      simpa [Log.act] using h.closed hzlp
    next hzlp =>
      refine ⟨h.ring, h.handed, ?_, h.lost, h.left, h.opens, h.zlp, h.closed⟩
      simp only [Sys.inflight, Log.act] at hbalance ⊢
      simp only [Bool.false_eq_true, if_false]
      omega

/-- The packet of the identity that is next. -/
def rows (identity : List (BitVec 8)) (x : Sys) : List (BitVec 8) :=
  (identity.drop (identity.length - x.idLeft)).take (min x.idLeft maxPacket)

/-- What `pump_tx` does: nothing, or a packet of the identity, an empty one or one of the ring. -/
inductive Pumps (identity : List (BitVec 8)) (x : Sys) : Sys → Prop where
  | rests : ¬ (FoundEmpty x ∧ x.txZlp = true) → Pumps identity x x
  | identity : x.configured = true → x.txInflight = 0 → x.zlpInflight = false → x.idLeft ≠ 0 →
    Pumps identity x { x.epIn .identity (rows identity x) with
      idInflight := true
      txInflight := min x.idLeft maxPacket
      txZlp := decide (min x.idLeft maxPacket = maxPacket)
      idLeft := x.idLeft - min x.idLeft maxPacket }
  | empty : FoundEmpty x → x.txZlp = true → Pumps identity x { x.epIn .empty [] with zlpInflight := true }
  | data : x.configured = true → x.txInflight = 0 → x.zlpInflight = false → x.idLeft = 0 → x.ring ≠ [] →
    Pumps identity x (({ x.epIn .data (x.ring.take (min x.ring.length maxPacket)) with
      txInflight := min x.ring.length maxPacket
      txZlp := decide (min x.ring.length maxPacket = maxPacket) } : Sys).ringDrop (min x.ring.length maxPacket))

theorem pumps (identity : List (BitVec 8)) (x : Sys) : Pumps identity x (x.pumpTx identity) := by
  unfold Sys.pumpTx
  split
  next hc =>
    refine .rests fun hf => ?_
    simp [hf.1.configured] at hc
  next hc =>
    have hc : x.configured = true := by simpa using hc
    split
    next hbusy =>
      refine .rests fun hf => ?_
      simp [hf.1.idle.1, hf.1.idle.2] at hbusy
    next hidle =>
      obtain ⟨hin, hzlp⟩ : x.txInflight = 0 ∧ x.zlpInflight = false := by simpa using hidle
      split
      next hleft => exact .identity hc hin hzlp hleft
      next hleft =>
        have hleft := not_not.mp hleft
        simp only
        split
        next hn =>
          have hring : x.ring = [] := by
            rw [← List.length_eq_zero_iff]
            unfold maxPacket at hn
            omega
          split
          next htx => exact .empty ⟨hc, ⟨hin, hzlp⟩, hleft, hring⟩ htx
          next htx => exact .rests fun hf => htx hf.2
        next hn =>
          refine .data hc hin hzlp hleft fun hring => hn ?_
          rw [hring]
          rfl

theorem rows_length (h : x.idLeft ≤ identity.length) : (rows identity x).length = min x.idLeft maxPacket := by
  rw [rows, List.length_take, List.length_drop]
  omega

/-- A packet is queued with nothing in flight. -/
structure Queued (kind : Kind) (bytes : List (BitVec 8)) (x y : Sys) : Prop where
  flags : y.txInflight = bytes.length ∧ y.zlpInflight = decide (bytes = []) ∧ y.idInflight = decide (kind = .identity)
  nonempty : kind = .identity → bytes ≠ []
  buf : y.buf = (x.epIn kind bytes).buf
  done : y.done = x.done
  log : ∃ removed, y.log = { (x.epIn kind bytes).log with removed := removed }

/-- Behind its events a pass comes to the pump with no completion it has not acted on, unless it is of the packet in flight. -/
theorem Link.at_pump (h : Link x) (hpc : x.pc = .pump) (hin : x.txInflight = 0) (hzlp : x.zlpInflight = false) :
    x.log.flight = none ∧ x.buf = none ∧ x.done = none := by
  have hflight := h.idle.mpr ⟨hin, hzlp⟩
  refine ⟨hflight, ?_, ?_⟩
  · cases hbuf : x.buf with
    | none => rfl
    | some p =>
      rw [(h.held p hbuf).1] at hflight
      cases hflight
  · cases hdone : x.done with
    | none => rfl
    | some i =>
      obtain ⟨p, hp, -⟩ | ⟨-, hrep⟩ := h.done i hdone
      · rw [hp] at hflight
        cases hflight
      · rw [hpc] at hrep
        cases hrep

theorem Link.queue (kind : Kind) (bytes : List (BitVec 8)) (h : Link x) (hpc : x.pc = .pump) (hin : x.txInflight = 0)
    (hzlp : x.zlpInflight = false) (hq : Queued kind bytes x y) : Link y := by
  obtain ⟨hflight, hbuf, hdone⟩ := h.at_pump hpc hin hzlp
  obtain ⟨⟨hin', hzlp', hid'⟩, hne, hbuf', hdone', removed, hlog⟩ := hq
  have hflight' : y.log.flight = some ⟨x.log.handed.length, kind, bytes, x.pid⟩ := by rw [hlog, Sys.epIn]
  have hhanded : y.log.handed.length = x.log.handed.length + 1 := by simp [hlog, Sys.epIn]
  have habandoned : y.log.abandoned = x.log.abandoned := by rw [hlog, Sys.epIn]
  have hacted : y.log.acted = x.log.acted := by rw [hlog, Sys.epIn]
  refine ⟨?_, ?_, ?_, ?_, ?_, ?_, ?_, ?_, ?_⟩
  · simp [hflight', hin', hzlp']
  · intro hid
    rw [hid'] at hid
    rw [hin']
    exact fun hzero => hne (of_decide_eq_true hid) (List.length_eq_zero_iff.mp hzero)
  · intro hz
    rw [hzlp'] at hz
    rw [hin', of_decide_eq_true hz]
    rfl
  · intro p hp
    rw [hbuf', Sys.epIn] at hp
    rw [hflight', hdone', hdone]
    exact ⟨hp, rfl⟩
  · simp [hdone', hdone]
  · intro p hp
    rw [hflight', Option.some.injEq] at hp
    subst hp
    rw [hhanded, habandoned]
    exact ⟨Nat.lt_succ_self _, fun hi => absurd (h.abandoned _ hi) (lt_irrefl _)⟩
  · intro i hi
    rw [habandoned] at hi
    rw [hhanded]
    exact (h.abandoned i hi).trans (Nat.lt_succ_self _)
  · intro e he
    rw [hacted] at he
    obtain ⟨heq, hnot, hlt, -⟩ := h.acted e he
    rw [habandoned, hhanded]
    refine ⟨heq, hnot, hlt.trans (Nat.lt_succ_self _), fun p hp => ?_⟩
    rw [hflight', Option.some.injEq] at hp
    subst hp
    exact hlt.ne
  · rw [hlog, Sys.epIn, hbuf]
    exact h.one

theorem Link.goto (h : Link x) (pc : Pc) (hpc : x.pc.reported = true → pc.reported = true) : Link { x with pc := pc } := by
  refine ⟨h.idle, h.identity, h.empty, h.held, ?_, h.fresh, h.abandoned, h.acted, h.one⟩
  intro i hi
  obtain hp | ⟨hnone, hrep⟩ := h.done i hi
  · exact .inl hp
  · exact .inr ⟨hnone, hpc hrep⟩

theorem Link.no_identity (h : Link x) (hin : x.txInflight = 0) : x.idInflight = false := by
  cases hid : x.idInflight with
  | false => rfl
  | true => exact absurd hin (h.identity hid)

theorem Link.pump (h : Link x) (hleft : x.idLeft ≤ identity.length) (hpc : x.pc = .pump) (hp : Pumps identity x y) :
    Link { y with pc := .wait } := by
  cases hp with
  | rests hno =>
    refine h.goto .wait fun hrep => ?_
    rw [hpc] at hrep
    cases hrep
  | identity hc hin hzlp hid =>
    have hlen := rows_length hleft
    have hne : rows identity x ≠ [] := by
      rw [← List.length_pos_iff, hlen]
      unfold maxPacket
      omega
    refine h.queue .identity (rows identity x) hpc hin hzlp ⟨⟨hlen.symm, ?_, rfl⟩, fun _ => hne, rfl, rfl, x.log.removed, rfl⟩
    exact hzlp.trans (decide_eq_false hne).symm
  | empty hf htx =>
    obtain ⟨hin, hzlp⟩ := hf.idle
    exact h.queue .empty [] hpc hin hzlp ⟨⟨hin, rfl, h.no_identity hin⟩, by simp, rfl, rfl, x.log.removed, rfl⟩
  | data hc hin hzlp hid hring =>
    have hne : x.ring.take (min x.ring.length maxPacket) ≠ [] := by
      rw [← List.length_pos_iff, List.length_take]
      have := List.length_pos_iff.mpr hring
      unfold maxPacket
      omega
    have hlen : (x.ring.take (min x.ring.length maxPacket)).length = min x.ring.length maxPacket := by
      rw [List.length_take]
      omega
    refine h.queue .data (x.ring.take (min x.ring.length maxPacket)) hpc hin hzlp
      ⟨⟨hlen.symm, ?_, h.no_identity hin⟩, by simp, rfl, rfl, _, rfl⟩
    exact hzlp.trans (decide_eq_false hne).symm

theorem bytesOf_append (a b : List Packet) : bytesOf (a ++ b) = bytesOf a ++ bytesOf b := List.flatMap_append

theorem bytesOf_singleton (p : Packet) : bytesOf [p] = p.bytes := List.flatMap_singleton ..

theorem rows_append (h : x.idLeft ≤ identity.length) :
    identity.take (identity.length - x.idLeft) ++ rows identity x =
      identity.take (identity.length - (x.idLeft - min x.idLeft maxPacket)) := by
  rw [rows, ← List.take_add]
  congr 1
  omega

theorem Count.pump (h : Count identity x) (hl : Link x) (hp : Pumps identity x y) : Count identity { y with pc := .wait } := by
  cases hp with
  | rests hno => exact { h with }
  | identity hc hin hzlp hid =>
    have hnone : x.inflight = 0 := by simp [Sys.inflight, hin]
    have hbalance := h.balance
    refine ⟨h.ring, ?_, ?_, h.lost, ?_, fun _ => ?_, fun _ => ?_, ?_⟩
    · simpa [Sys.epIn] using h.handed
    · simp only [Sys.inflight, Sys.epIn, if_true]
      omega
    · exact (Nat.sub_le _ _).trans h.left
    · obtain ⟨a, b, hab, ha, hb, hbytes, hdone⟩ := h.opens hc
      have hnil : b = [] := by_contra fun hne => hid (hdone hne)
      refine ⟨a ++ [⟨x.log.handed.length, .identity, rows identity x, x.pid⟩], [], ?_, ?_, by simp, ?_, by simp⟩
      · simp [Sys.epIn, hab, hnil]
      · intro p hp
        obtain hp | hp := List.mem_append.mp hp
        · exact ha p hp
        · rw [List.mem_singleton.mp hp]
      · rw [bytesOf_append, bytesOf_singleton, hbytes]
        exact rows_append h.left
    · simp only [Sys.epIn, full_append, rows_length h.left, decide_eq_true_eq]
    · simp [Sys.epIn, hzlp]
  | empty hf htx =>
    refine ⟨h.ring, ?_, h.balance, h.lost, h.left, fun hc => ?_, by simp, fun _ => ?_⟩
    · simpa [Sys.epIn, bytesOf] using h.handed
    · obtain ⟨a, b, hab, ha, hb, hbytes, hdone⟩ := h.opens hc
      refine ⟨a, b ++ [⟨x.log.handed.length, .empty, [], x.pid⟩], ?_, ha, ?_, hbytes, fun _ => hf.identity⟩
      · simp [Sys.epIn, hab]
      · intro p hp
        obtain hp | hp := List.mem_append.mp hp
        · exact hb p hp
        · rw [List.mem_singleton.mp hp]
          simp
    · simp [Sys.epIn, full_append, maxPacket]
  | data hc hin hzlp hid hring =>
    have hnone : x.inflight = 0 := by simp [Sys.inflight, hin]
    have hbalance := h.balance
    have hlen : (x.ring.take (min x.ring.length maxPacket)).length = min x.ring.length maxPacket := by
      rw [List.length_take]
      omega
    refine ⟨?_, ?_, ?_, h.lost, h.left, fun _ => ?_, fun _ => ?_, ?_⟩
    · simp [Sys.ringDrop, Sys.epIn, h.ring]
    · simp [Sys.ringDrop, Sys.epIn, ← h.handed, bytesOf]
    · simp only [Sys.ringDrop, Sys.epIn, Sys.inflight, List.length_append, hlen, hl.no_identity hin, Bool.false_eq_true, if_false]
      omega
    · obtain ⟨a, b, hab, ha, hb, hbytes, hdone⟩ := h.opens hc
      refine ⟨a, b ++ [⟨x.log.handed.length, .data, x.ring.take (min x.ring.length maxPacket), x.pid⟩], ?_, ha, ?_,
        hbytes, fun _ => hid⟩
      · simp [Sys.ringDrop, Sys.epIn, hab]
      · intro p hp
        obtain hp | hp := List.mem_append.mp hp
        · exact hb p hp
        · rw [List.mem_singleton.mp hp]
          simp
    · simp only [Sys.ringDrop, Sys.epIn, full_append, hlen, decide_eq_true_eq]
    · simp [Sys.ringDrop, Sys.epIn, hzlp]

/-! ### Runs -/

structure Inv (identity : List (BitVec 8)) (x : Sys) : Prop where
  link : Link x
  count : Count identity x

theorem Count.goto (h : Count identity x) (pc : Pc) : Count identity { x with pc := pc } :=
  { h with }

theorem Inv.raise (h : Inv identity x) (reset : Bool) (setup : Option Setup) :
    Inv identity { x with reset := reset, setup := setup } := by
  obtain ⟨hl, hc⟩ := h
  exact ⟨{ hl with },
    { hc with }⟩

theorem Inv.onSetup (h : Inv identity x) {ev : Events} (hpc : x.pc = .setup ev)
    (hprompt : ∀ s, x.setup = some s → (request s).abandons = true → x.done.isSome → ev.buffer = true) :
    Inv identity { x.onSetup identity with pc := .buffers ev } := by
  have hgoto : Inv identity { x with pc := .buffers ev } := by
    refine ⟨h.link.goto _ fun hrep => ?_, h.count.goto _⟩
    rw [hpc] at hrep
    exact hrep
  unfold Sys.onSetup
  cases hs : x.setup with
  | none => exact hgoto
  | some s =>
    simp only
    by_cases ha : (request s).abandons = true
    · exact ⟨h.link.abandon (abandoned_onRequest ha none ev) (hprompt s hs ha), h.count.onRequest ha none ev⟩
    · cases hr : request s with
      | configure config =>
        rw [hr] at ha
        exact absurd rfl ha
      | clearHalt =>
        rw [hr] at ha
        exact absurd rfl ha
      | halt =>
        obtain ⟨hl, hc⟩ := hgoto
        -- the bytes stay in flight until the halt is cleared
        exact ⟨⟨hl.idle, hl.identity, hl.empty, by simp [Sys.onRequest, Sys.unarm], hl.done, hl.fresh, hl.abandoned,
          hl.acted, hl.one⟩, { hc with }⟩
      | other => exact hgoto.raise x.reset none

theorem Inv.irq (h : Inv identity x) (hp : Prompt x) (other : Bool) : Inv identity (x.irq identity other) := by
  unfold Sys.irq
  unfold Prompt Sys.abandons at hp
  cases hpc : x.pc with
  | wait =>
    refine ⟨h.link.goto _ fun hrep => ?_, h.count.goto _⟩
    rw [hpc] at hrep
    cases hrep
  | busReset ev =>
    simp only [hpc] at hp
    simp only
    split
    next hev => exact ⟨h.link.abandon (abandoned_onBusReset ev) (hp hev), h.count.onBusReset ev⟩
    next =>
      refine ⟨h.link.goto _ fun hrep => ?_, h.count.goto _⟩
      rw [hpc] at hrep
      exact hrep
  | setup ev =>
    simp only [hpc] at hp
    simp only
    split
    next hev =>
      refine h.onSetup hpc fun s hs ha => hp ?_
      rw [hev, hs]
      exact ha
    next =>
      refine ⟨h.link.goto _ fun hrep => ?_, h.count.goto _⟩
      rw [hpc] at hrep
      exact hrep
  | buffers ev =>
    simp only
    split
    next => exact ⟨h.link.onBuffers _, h.count.onBuffers _⟩
    next hev =>
      refine ⟨h.link.goto _ fun hrep => ?_, h.count.goto _⟩
      rw [hpc] at hrep
      exact absurd hrep hev
  | pump => exact ⟨h.link.pump h.count.left hpc (pumps identity x), h.count.pump h.link (pumps identity x)⟩

theorem Inv.push (h : Inv identity x) (bytes : List (BitVec 8)) : Inv identity (x.step identity (.push bytes)) := by
  obtain ⟨hl, hc⟩ := h
  refine ⟨{ hl with },
    ⟨?_, hc.handed, hc.balance, hc.lost, hc.left, hc.opens, hc.zlp, hc.closed⟩⟩
  simp [Sys.step, ← hc.ring]

theorem Inv.take (h : Inv identity x) : Inv identity (x.step identity .take) := by
  unfold Sys.step
  simp only
  split
  next p hbuf =>
    obtain ⟨hl, hc⟩ := h
    obtain ⟨hflight, -⟩ := hl.held p hbuf
    refine ⟨⟨hl.idle, hl.identity, hl.empty, by simp, ?_, hl.fresh, hl.abandoned, hl.acted, hl.one⟩,
      { hc with }⟩
    intro i hi
    exact .inl ⟨p, hflight, Option.some.inj hi⟩
  next => exact h

theorem Runs.inv (h : Runs identity Prompt x) : Inv identity x := by
  induction h with
  | init => exact ⟨link_init, count_init⟩
  | @step x op _ hp ih =>
    cases op with
    | push bytes => exact ih.push bytes
    | reset => exact ih.raise true x.setup
    | setup s => exact ih.raise x.reset (some s)
    | take => exact ih.take
    | irq other => exact ih.irq (hp other rfl) other

theorem Inv.zlpRule (h : Inv identity x) : ZlpRule identity x x.log.session := by
  obtain ⟨y, hy⟩ : ∃ y, y = x.pumpTx identity := ⟨_, rfl⟩
  have hp := pumps identity x
  unfold ZlpRule
  rw [← hy] at hp ⊢
  cases hp with
  | rests hno =>
    refine ⟨?_, ?_⟩
    · rintro ⟨p, hp, -⟩
      simp at hp
    · rintro ⟨hf, hfull⟩
      exact absurd ⟨hf, (h.count.zlp hf.idle.2).mpr hfull⟩ hno
  | identity hc hin hzlp hid =>
    refine ⟨?_, fun hf => absurd hf.1.identity hid⟩
    rintro ⟨p, hp, hnil⟩
    have hlen := rows_length h.count.left
    obtain rfl : _ = p := by simpa [Sys.epIn] using hp
    simp only at hnil
    rw [hnil, List.length_nil] at hlen
    unfold maxPacket at hlen
    omega
  | empty hf htx => exact ⟨fun _ => ⟨hf, (h.count.zlp hf.idle.2).mp htx⟩, fun _ => ⟨_, rfl, rfl⟩⟩
  | data hc hin hzlp hid hring =>
    refine ⟨?_, fun hf => absurd hf.1.ring hring⟩
    rintro ⟨p, hp, hnil⟩
    obtain rfl : _ = p := by simpa [Sys.ringDrop, Sys.epIn] using hp
    simp only [List.take_eq_nil_iff] at hnil
    have := List.length_pos_iff.mpr hring
    unfold maxPacket at hnil
    obtain hnil | hnil := hnil
    · omega
    · exact absurd hnil hring

theorem Inv.accounts (h : Inv identity x) : Accounts identity x where
  one := h.link.one
  handed := ⟨h.count.handed, h.count.ring⟩
  opens := by
    intro hc
    obtain ⟨a, b, hab, ha, hb, hbytes, hdone⟩ := h.count.opens hc
    refine ⟨a, b, hab, ha, hb, by rw [hbytes]; exact List.take_prefix .., fun hne => ?_⟩
    rw [hbytes, hdone hne, Nat.sub_zero, List.take_length]
  zlp _ := h.zlpRule
  balance := by
    have hring := congrArg List.length h.count.ring
    have hbalance := h.count.balance
    rw [List.length_append] at hring
    omega
  lost := h.count.lost
  acted e he := ⟨(h.link.acted e he).1, (h.link.acted e he).2.1⟩

/-- The transmission, in every run in which no packet is given up with a completion its pass does not look at: one
packet at a time is with the controller, the ring's bytes go over in their order and behind the identity, a zero-length
packet closes an open transfer and no other, and every byte is in the ring, in flight, completed or lost. -/
theorem transmit_accounts (h : Runs identity Prompt x) : Accounts identity x := h.inv.accounts

/-- Some actions in their order, from states that meet `P`. -/
def Sys.run (identity : List (BitVec 8)) (P : Sys → Prop) [DecidablePred P] (x : Sys) (ops : List Op) : Option Sys :=
  ops.foldlM (fun x op => if P x then some (x.step identity op) else none) x

theorem Runs.run {P : Sys → Prop} [DecidablePred P] {ops : List Op} (h : Runs identity P x) (hr : x.run identity P ops = some y) :
    Runs identity P y := by
  induction ops generalizing x with
  | nil =>
    cases hr
    exact h
  | cons op ops ih =>
    rw [Sys.run, List.foldlM_cons] at hr
    split at hr
    next hp => exact ih (h.step op fun _ _ => hp) hr
    next => cases hr

def pass : List Op := List.replicate 5 (.irq false)

def setConfiguration : Setup := ⟨0, 9, 1, 0, 0⟩

def clearHalt : Setup := ⟨2, 1, 0, 0x82, 0⟩

/-- A configuration whose identity the host has taken, and a full packet behind it. -/
def fullPacket : List Op := [.setup setConfiguration] ++ pass ++ [.take, .push (List.replicate 32 0x78)] ++ pass

theorem transmit_accounts_fullPacket :
    ∃ x, Runs [0x4b] Prompt x ∧ x.log.completed = 32 ∧ x.log.handed.length = 3 ∧ Accounts [0x4b] x := by
  obtain ⟨x, hx, hcompleted, hhanded⟩ : ∃ x, Sys.run [0x4b] Prompt {}
      (fullPacket ++ [.take] ++ pass ++ [.take] ++ pass) = some x ∧ x.log.completed = 32 ∧
      x.log.handed.length = 3 := ⟨_, rfl, rfl, rfl⟩
  have hrun := Runs.init.run hx
  exact ⟨x, hrun, hcompleted, hhanded, transmit_accounts hrun⟩

/-- A full packet is given up for a halt that is cleared, and no zero-length packet follows it. And a packet completes
behind the events of the pass that gives it up: its completion is taken for the next packet, which is replaced while the
controller holds it. -/
theorem transmission_disturbed :
    (∃ x, Runs [0x4b] Prompt x ∧ x.pc = .pump ∧ FoundEmpty x ∧ Full x.log.handed ∧ ¬ ZlpRule [0x4b] x x.log.handed) ∧
    ∃ x, Runs [0x4b] (fun _ => True) x ∧ x.log.replaced = [2] ∧ (1, 2) ∈ x.log.acted ∧ 1 ∈ x.log.abandoned := by
  refine ⟨?_, ?_⟩
  · obtain ⟨x, hx, hpc, hconfigured, hin, hzlp, hleft, hring, hlast, hpump⟩ : ∃ x,
        Sys.run [0x4b] Prompt {} (fullPacket ++ [.setup clearHalt] ++ List.replicate 4 (.irq false)) = some x ∧ x.pc = .pump ∧
        x.configured = true ∧ x.txInflight = 0 ∧ x.zlpInflight = false ∧ x.idLeft = 0 ∧ x.ring = [] ∧
        x.log.handed.getLast? = some ⟨1, .data, List.replicate 32 0x78, true⟩ ∧ x.pumpTx [0x4b] = x :=
      ⟨_, rfl, rfl, rfl, rfl, rfl, rfl, rfl, rfl, rfl⟩
    have hfound : FoundEmpty x := ⟨hconfigured, ⟨hin, hzlp⟩, hleft, hring⟩
    have hfull : Full x.log.handed := ⟨_, hlast, rfl⟩
    refine ⟨x, Runs.init.run hx, hpc, hfound, hfull, fun hrule => ?_⟩
    obtain ⟨p, hp, -⟩ := hrule.mpr ⟨hfound, hfull⟩
    rw [hpump] at hp
    simp at hp
  · obtain ⟨x, hx, hreplaced, hacted, habandoned⟩ : ∃ x, Sys.run [0x4b] (fun _ => True) {} (fullPacket ++
        [.setup setConfiguration, .irq false, .take] ++ List.replicate 4 (.irq false) ++ [.push [0x79]] ++ pass) = some x ∧
        x.log.replaced = [2] ∧ x.log.acted = [(1, 2), (0, 0)] ∧ x.log.abandoned = [1] := ⟨_, rfl, rfl, rfl, rfl⟩
    refine ⟨x, Runs.init.run hx, hreplaced, ?_, ?_⟩
    · simp [hacted]
    · simp [habandoned]

end KickOS.Usb.Bulk
