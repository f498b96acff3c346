import KickOS.Trace.Record
import KickOS.Lib.Wrapped
import KickOS.Trace.Forward

/-! The emission of the records (`kernel/include/kickos/ktrace.h`) into the telemetry ring (`lib/rtt.cc`), the drains of
the host, and the loss scan of the decoder (`tools/kicktrace.py`).

A trace point runs under one lock, so it is one step. The offsets of the ring are `uint32_t`. Beside the counters and
the ring the state keeps, for the statements only, every record that was emitted, with whether the ring took it. -/

namespace KickOS.Trace

/-- The telemetry channel of the control block. -/
structure Up where
  size : Nat
  buffer : Nat → BitVec 8
  wrOff : Nat := 0
  rdOff : Nat := 0

namespace Up

/-- The bytes stored one by one, from offset `w` on, and the offset behind the last. -/
def store (size : Nat) : Bytes → (Nat → BitVec 8) → Nat → (Nat → BitVec 8) × Nat
  | [], buffer, w => (buffer, w)
  | b :: l, buffer, w => store size l (Function.update buffer w b) (Lib.Wrapped.next size w)

/-- The difference is that of `uint32_t`. -/
def used (up : Up) : Nat := (up.wrOff + up.size + (2 ^ 32 - up.rdOff)) % 2 ^ 32 % up.size

/-- `kickos_rtt_write_record_ch1`, with whether it took the record. -/
def writeRecordCh1 (up : Up) (l : Bytes) : Up × Bool :=
  let freeb := up.size - 1 - up.used
  if freeb < l.length then (up, false)
  else
    let stored := store up.size l up.buffer up.wrOff
    ({ up with buffer := stored.1, wrOff := stored.2 }, true)

/-- `kickos_rtt_ch1_drain`, with the bytes it copied. -/
def drain (up : Up) : Nat → Up × Bytes
  | 0 => (up, [])
  | max + 1 =>
    if up.rdOff = up.wrOff then (up, [])
    else
      let rest := drain { up with rdOff := Lib.Wrapped.next up.size up.rdOff } max
      (rest.1, up.buffer up.rdOff :: rest.2)

end Up

/-- The telemetry counters of the kernel. -/
structure Counters where
  traceSeq : BitVec 16 := 0
  traceRecordsAttempted : BitVec 32 := 0
  traceDropped : BitVec 32 := 0
  traceProbeOverhead : BitVec 16 := 0

structure St where
  k : Counters := {}
  up : Up
  drained : Bytes := []
  log : List (Record × Bool) := []

namespace St

variable (x : St)

/-- The write of a record, and the count of a drop. -/
def write (l : Bytes) (r : Record) : St :=
  let w := x.up.writeRecordCh1 l
  { x with
    up := w.1
    k := if w.2 then x.k else { x.k with traceDropped := x.k.traceDropped + 1 }
    log := x.log ++ [(r, w.2)] }

/-- `ktrace_detail::put`. -/
def put (l : Bytes) (r : Record) : St :=
  { x with k := { x.k with traceRecordsAttempted := x.k.traceRecordsAttempted + 1 } }.write l r

/-- `trace_seq++`. -/
def numbered : St := { x with k := { x.k with traceSeq := x.k.traceSeq + 1 } }

/-- A trace point at time `t`, by its encoder. -/
def ktrace (encode : BitVec 16 → BitVec 32 → Bytes) (e : Event) (t : BitVec 32) : St :=
  x.numbered.put (encode x.k.traceSeq t) ⟨e, x.k.traceSeq, t⟩

def ktraceSwitch (t : BitVec 32) (fromTid toTid : BitVec 16) : St :=
  x.ktrace (fun seq t => encodeSwitch seq t fromTid toTid) (.switch fromTid toTid) t

def ktraceSyscallEnter (t : BitVec 32) (tid nr : BitVec 16) : St :=
  x.ktrace (fun seq t => encodeSyscallEnter seq t tid nr) (.syscallEnter tid nr) t

def ktraceSyscallExit (t : BitVec 32) (tid nr : BitVec 16) : St :=
  x.ktrace (fun seq t => encodeSyscallExit seq t tid nr) (.syscallExit tid nr) t

def ktraceIrqEnter (t : BitVec 32) (line : BitVec 16) : St := x.ktrace (fun seq t => encodeIrqEnter seq t line) (.irqEnter line) t

def ktraceIrqExit (t : BitVec 32) (line : BitVec 16) : St := x.ktrace (fun seq t => encodeIrqExit seq t line) (.irqExit line) t

/-- `ktrace_session`, which counts itself before it encodes the count. -/
def ktraceSession (arch : BitVec 8) (t : BitVec 32) (tAnchor : BitVec 64) : St :=
  let seq := x.k.traceSeq
  let y := { x.numbered with k := { x.numbered.k with traceRecordsAttempted := x.k.traceRecordsAttempted + 1 } }
  y.write (encodeSession seq t arch 32 y.k.traceProbeOverhead y.k.traceRecordsAttempted tAnchor)
    ⟨.session traceVersion arch 32 y.k.traceProbeOverhead y.k.traceRecordsAttempted tAnchor, seq, t⟩

/-- The host takes at most `max` bytes off the ring. -/
def drain (max : Nat) : St :=
  let d := x.up.drain max
  { x with up := d.1, drained := x.drained ++ d.2 }

end St

/-- What happens to the trace: a trace point with the time it reads, the measure of the probe, or a drain. -/
inductive Act where
  | session (t : BitVec 32) (tAnchor : BitVec 64)
  | switch (t : BitVec 32) (fromTid toTid : BitVec 16)
  | syscallEnter (t : BitVec 32) (tid nr : BitVec 16)
  | syscallExit (t : BitVec 32) (tid nr : BitVec 16)
  | irqEnter (t : BitVec 32) (line : BitVec 16)
  | irqExit (t : BitVec 32) (line : BitVec 16)
  | probe (overhead : BitVec 16)
  | drain (max : Nat)

/-- One step, on a build for the architecture `arch`. -/
def St.step (arch : BitVec 8) (x : St) : Act → St
  | .session t tAnchor => x.ktraceSession arch t tAnchor
  | .switch t fromTid toTid => x.ktraceSwitch t fromTid toTid
  | .syscallEnter t tid nr => x.ktraceSyscallEnter t tid nr
  | .syscallExit t tid nr => x.ktraceSyscallExit t tid nr
  | .irqEnter t line => x.ktraceIrqEnter t line
  | .irqExit t line => x.ktraceIrqExit t line
  | .probe overhead => { x with k := { x.k with traceProbeOverhead := overhead } }
  | .drain max => x.drain max

def St.run (arch : BitVec 8) (x : St) (acts : List Act) : St := acts.foldl (St.step arch) x

/-- The counters at zero and an empty ring. -/
def St.init (size : Nat) (buffer : Nat → BitVec 8) : St := { up := { size := size, buffer := buffer } }

def accepted (log : List (Record × Bool)) : List Record := (log.filter Prod.snd).map Prod.fst

/-- The dropped records that an accepted one follows. -/
def dropsFollowed : List (Record × Bool) → Nat
  | [] => 0
  | p :: log => (if p.2 = false ∧ log.any Prod.snd then 1 else 0) + dropsFollowed log

/-- The records dropped between the first and the last accepted one. -/
def droppedBetween (log : List (Record × Bool)) : Nat := dropsFollowed (log.dropWhile fun p => !p.2)

def seqMod : Nat := 65536

/-- The loop of `loss_scan`, at record `idx`. -/
def lossFrom (expected : Option Nat) (idx lost : Nat) (gaps : List Nat) : List Record → Nat × List Nat
  | [] => (lost, gaps)
  | r :: recs =>
    let next := some ((r.seq.toNat + 1) % seqMod)
    match expected with
    | none => lossFrom next (idx + 1) lost gaps recs
    | some e =>
      if r.seq.toNat = e then lossFrom next (idx + 1) lost gaps recs
      else
        let miss := (((r.seq.toNat : Int) - e) % seqMod).toNat
        lossFrom next (idx + 1) (lost + miss) (gaps ++ [idx]) recs

/-- `loss_scan`. The gaps are a set, in the order they are added. -/
def lossScan (recs : List Record) : Nat × List Nat := lossFrom none 0 0 [] recs

/-! ### What the host can tell of the trace

The ring takes whole records in the order they are emitted, so the decoder reads back the records it took, and their
numbers tell how many it did not. -/

open Lib.Wrapped

section Ring

variable {up : Up} {q l : Bytes} {size rd wr : Nat} {buffer : Nat → BitVec 8}

theorem queued_store (h : Queued size buffer rd wr q) (hfree : q.length + l.length < size) :
    Queued size (Up.store size l buffer wr).1 rd (Up.store size l buffer wr).2 (q ++ l) := by
  induction l generalizing buffer wr q with
  | nil => simpa [Up.store] using h
  | cons b l ih =>
    rw [List.length_cons] at hfree
    have hpush : Queued size (Function.update buffer wr b) rd (next size wr) (q ++ [b]) := h.push (by omega)
    have hrest := ih hpush (by rw [List.length_append, List.length_singleton]; omega)
    rwa [List.append_assoc] at hrest

def Up.Holding (up : Up) (q : Bytes) : Prop := Queued up.size up.buffer up.rdOff up.wrOff q

theorem Up.Holding.used (h : up.Holding q) (hsize : up.size ≤ 2 ^ 31) : up.used = q.length := by
  have hfree := h.free
  have hrd := h.lt
  have hwr := h.wr_lt
  have heq := h.wr_eq
  unfold Up.used
  obtain ⟨hwrap, hw⟩ | ⟨hwrap, hw⟩ : up.rdOff + q.length < up.size ∧ up.wrOff = up.rdOff + q.length ∨
      up.size ≤ up.rdOff + q.length ∧ up.wrOff + up.size = up.rdOff + q.length := by
    obtain hlt | hge := Nat.lt_or_ge (up.rdOff + q.length) up.size
    · exact .inl ⟨hlt, by rw [heq, Nat.mod_eq_of_lt hlt]⟩
    · refine .inr ⟨hge, ?_⟩
      rw [heq, Nat.mod_eq_sub_mod hge, Nat.mod_eq_of_lt (by omega)]
      omega
  · rw [hw, show up.rdOff + q.length + up.size + (2 ^ 32 - up.rdOff) = (q.length + up.size) + 2 ^ 32 by omega, Nat.add_mod_right,
      Nat.mod_eq_of_lt (show q.length + up.size < 2 ^ 32 by omega), Nat.add_mod_right, Nat.mod_eq_of_lt hfree]
  · rw [hw, show up.rdOff + q.length + (2 ^ 32 - up.rdOff) = q.length + 2 ^ 32 by omega, Nat.add_mod_right,
      Nat.mod_eq_of_lt (show q.length < 2 ^ 32 by omega), Nat.mod_eq_of_lt hfree]

theorem Up.Holding.write (h : up.Holding q) (hsize : up.size ≤ 2 ^ 31) (l : Bytes) :
    (q.length + l.length < up.size ∧ (up.writeRecordCh1 l).2 = true ∧ (up.writeRecordCh1 l).1.size = up.size ∧
      (up.writeRecordCh1 l).1.Holding (q ++ l)) ∨
    (up.size ≤ q.length + l.length ∧ up.writeRecordCh1 l = (up, false)) := by
  have hfree := h.free
  unfold Up.writeRecordCh1
  rw [h.used hsize]
  by_cases hfull : up.size - 1 - q.length < l.length
  · simp only [hfull, if_true]
    exact .inr ⟨by omega, trivial⟩
  · have hfit : q.length + l.length < up.size := by omega
    simp only [hfull, if_false]
    exact .inl ⟨hfit, trivial, trivial, queued_store h hfit⟩

theorem Up.Holding.drain (h : up.Holding q) (max : Nat) :
    (up.drain max).1.size = up.size ∧ ∃ q', (up.drain max).2 ++ q' = q ∧ (up.drain max).1.Holding q' := by
  induction max generalizing up q with
  | zero => exact ⟨rfl, q, rfl, h⟩
  | succ max ih =>
    rw [Up.drain]
    split_ifs with hempty
    · exact ⟨rfl, q, rfl, h⟩
    · cases q with
      | nil => exact absurd (h.eq_nil.mpr rfl) hempty
      | cons b q =>
        have hpop : Up.Holding { up with rdOff := next up.size up.rdOff } q := Queued.pop h
        obtain ⟨hsize, q', hq', hold⟩ := ih hpop
        refine ⟨hsize, q', ?_, hold⟩
        rw [List.cons_append, hq', Queued.head h]

theorem Up.Holding.drain_all (h : up.Holding q) {max : Nat} (hmax : q.length ≤ max) :
    (up.drain max).1.rdOff = (up.drain max).1.wrOff := by
  induction max generalizing up q with
  | zero => exact h.eq_nil.mpr (List.length_eq_zero_iff.mp (Nat.le_zero.mp hmax))
  | succ max ih =>
    rw [Up.drain]
    split_ifs with hempty
    · exact hempty
    · cases q with
      | nil => exact absurd (h.eq_nil.mpr rfl) hempty
      | cons b q =>
        have hpop : Up.Holding { up with rdOff := next up.size up.rdOff } q := Queued.pop h
        exact ih hpop (by rw [List.length_cons] at hmax; omega)

end Ring

/-- A trace point: the record it makes, and what it leaves. -/
structure Emits (x y : St) (r : Record) : Prop where
  seq : r.seq = x.k.traceSeq
  attempted : ∀ v a b p n c, r.event = .session v a b p n c → n = x.k.traceRecordsAttempted + 1
  seq_next : y.k.traceSeq = x.k.traceSeq + 1
  attempted_next : y.k.traceRecordsAttempted = x.k.traceRecordsAttempted + 1
  up : y.up = (x.up.writeRecordCh1 r.bytes).1
  drained : y.drained = x.drained
  log : y.log = x.log ++ [(r, (x.up.writeRecordCh1 r.bytes).2)]

theorem St.write_k (x : St) (l : Bytes) (r : Record) :
    (x.write l r).k.traceSeq = x.k.traceSeq ∧ (x.write l r).k.traceRecordsAttempted = x.k.traceRecordsAttempted := by
  unfold St.write
  simp only
  split_ifs <;> exact ⟨rfl, rfl⟩

theorem ktrace_emits (x : St) (encode : BitVec 16 → BitVec 32 → Bytes) (e : Event)
    (he : ∀ seq t, encode seq t = (Record.mk e seq t).bytes) (hs : ∀ v a b p n c, e ≠ .session v a b p n c)
    (t : BitVec 32) : Emits x (x.ktrace encode e t) ⟨e, x.k.traceSeq, t⟩ := by
  have hk := St.write_k { x.numbered with k := { x.numbered.k with traceRecordsAttempted := x.k.traceRecordsAttempted + 1 } }
    (encode x.k.traceSeq t) ⟨e, x.k.traceSeq, t⟩
  refine ⟨rfl, fun v a b p n c hev => absurd hev (hs v a b p n c), hk.1, hk.2, ?_, rfl, ?_⟩
  · rw [← he]
    rfl
  · rw [← he]
    rfl

theorem session_emits (x : St) (arch : BitVec 8) (t : BitVec 32) (anchor : BitVec 64) :
    Emits x (x.ktraceSession arch t anchor)
      ⟨.session traceVersion arch 32 x.k.traceProbeOverhead (x.k.traceRecordsAttempted + 1) anchor, x.k.traceSeq, t⟩ := by
  have hk := St.write_k { x.numbered with k := { x.numbered.k with traceRecordsAttempted := x.k.traceRecordsAttempted + 1 } }
    (encodeSession x.k.traceSeq t arch 32 x.k.traceProbeOverhead (x.k.traceRecordsAttempted + 1) anchor)
    ⟨.session traceVersion arch 32 x.k.traceProbeOverhead (x.k.traceRecordsAttempted + 1) anchor, x.k.traceSeq, t⟩
  refine ⟨rfl, ?_, hk.1, hk.2, rfl, rfl, rfl⟩
  intro v a b p n c hev
  cases hev
  rfl

theorem step_trace (arch : BitVec 8) (x : St) (act : Act) :
    (∃ r, Emits x (x.step arch act) r) ∨ (∃ v, x.step arch act = { x with k := { x.k with traceProbeOverhead := v } }) ∨
    ∃ max, x.step arch act = x.drain max := by
  cases act with
  | session t anchor => exact .inl ⟨_, session_emits x arch t anchor⟩
  | switch t a b =>
    exact .inl ⟨_, ktrace_emits x (fun seq t => encodeSwitch seq t a b) (.switch a b) (fun _ _ => rfl) (by simp) t⟩
  | syscallEnter t a b =>
    exact .inl ⟨_, ktrace_emits x (fun seq t => encodeSyscallEnter seq t a b) (.syscallEnter a b) (fun _ _ => rfl) (by simp) t⟩
  | syscallExit t a b =>
    exact .inl ⟨_, ktrace_emits x (fun seq t => encodeSyscallExit seq t a b) (.syscallExit a b) (fun _ _ => rfl) (by simp) t⟩
  | irqEnter t line =>
    exact .inl ⟨_, ktrace_emits x (fun seq t => encodeIrqEnter seq t line) (.irqEnter line) (fun _ _ => rfl) (by simp)
      t⟩
  | irqExit t line =>
    exact .inl ⟨_, ktrace_emits x (fun seq t => encodeIrqExit seq t line) (.irqExit line) (fun _ _ => rfl) (by simp) t⟩
  | probe v => exact .inr (.inl ⟨v, rfl⟩)
  | drain max => exact .inr (.inr ⟨max, rfl⟩)

/-- The records are numbered as they were emitted, and a session carries the count of the records up to itself. -/
def Numbered (log : List (Record × Bool)) : Prop :=
  ∀ i p, log[i]? = some p → p.1.seq = BitVec.ofNat 16 i ∧ ∀ v a b o n c, p.1.event = .session v a b o n c →
    n = BitVec.ofNat 32 (i + 1)

/-- What holds of the trace after every step: what the host has with what stands in the ring is the records the ring
took, whole and in order. -/
structure Inv (size : Nat) (x : St) : Prop where
  size_eq : x.up.size = size
  stream : ∃ q, x.up.Holding q ∧ x.drained ++ q = (accepted x.log).flatMap Record.bytes
  seq : x.k.traceSeq = BitVec.ofNat 16 x.log.length
  attempted : x.k.traceRecordsAttempted = BitVec.ofNat 32 x.log.length
  numbered : Numbered x.log
  first : ∀ p, x.log.head? = some p → p.2 = true

section Runs

variable {size : Nat} {x y : St}

theorem accepted_append (l l' : List (Record × Bool)) : accepted (l ++ l') = accepted l ++ accepted l' := by
  simp [accepted]

theorem bytes_length_le (r : Record) : r.bytes.length ≤ 28 := (recLen_bounds (recLen_type r)).2

theorem Inv.emits (h : Inv size x) (h29 : 29 ≤ size) (h31 : size ≤ 2 ^ 31) {r : Record} (he : Emits x y r) : Inv size y := by
  obtain ⟨q, hq, hstream⟩ := h.stream
  have hsize : x.up.size ≤ 2 ^ 31 := h.size_eq ▸ h31
  have hlen : y.log.length = x.log.length + 1 := by rw [he.log, List.length_append, List.length_singleton]
  refine ⟨?_, ?_, ?_, ?_, ?_, ?_⟩
  · obtain ⟨-, -, hs, -⟩ | ⟨-, hs⟩ := hq.write hsize r.bytes
    · rw [he.up, hs, h.size_eq]
    · rw [he.up, hs, h.size_eq]
  · obtain ⟨-, hok, -, hold⟩ | ⟨-, hs⟩ := hq.write hsize r.bytes
    · refine ⟨q ++ r.bytes, he.up ▸ hold, ?_⟩
      rw [he.drained, he.log, accepted_append, List.flatMap_append, ← hstream, hok]
      simp [accepted]
    · refine ⟨q, ?_, ?_⟩
      · rw [he.up, hs]
        exact hq
      · rw [he.drained, he.log, accepted_append, List.flatMap_append, ← hstream, hs]
        simp [accepted]
  · rw [he.seq_next, h.seq, hlen]
    simp [BitVec.ofNat_add]
  · rw [he.attempted_next, h.attempted, hlen]
    simp [BitVec.ofNat_add]
  · intro i p hp
    rw [he.log] at hp
    obtain hlt | heq := Nat.lt_or_ge i x.log.length
    · rw [List.getElem?_append_left hlt] at hp
      exact h.numbered i p hp
    · rw [List.getElem?_append_right heq] at hp
      obtain ⟨hi, rfl⟩ : i = x.log.length ∧ p = (r, (x.up.writeRecordCh1 r.bytes).2) := by
        rw [List.getElem?_singleton] at hp
        split_ifs at hp with h0
        exact ⟨by omega, (Option.some.inj hp).symm⟩
      subst hi
      refine ⟨by rw [he.seq, h.seq], ?_⟩
      intro v a b o n c hev
      rw [he.attempted v a b o n c hev, h.attempted]
      simp [BitVec.ofNat_add]
  · intro p hp
    rw [he.log] at hp
    obtain hnil | ⟨p', l, hl⟩ : x.log = [] ∨ ∃ p' l, x.log = p' :: l := by
      cases x.log with
      | nil => exact .inl rfl
      | cons p' l => exact .inr ⟨p', l, rfl⟩
    · -- the first record finds the ring empty
      rw [hnil] at hp hstream
      cases hp
      have hq0 : q = [] := (List.append_eq_nil_iff.mp hstream).2
      subst hq0
      obtain ⟨-, hok, -⟩ | ⟨hle, -⟩ := hq.write hsize r.bytes
      · exact hok
      · have := bytes_length_le r
        rw [h.size_eq, List.length_nil] at hle
        omega
    · refine h.first p ?_
      rw [hl] at hp ⊢
      exact hp

theorem Inv.drain (h : Inv size x) (max : Nat) : Inv size (x.drain max) := by
  obtain ⟨q, hq, hstream⟩ := h.stream
  obtain ⟨hs, q', hq', hold⟩ := hq.drain max
  refine ⟨hs.trans h.size_eq, ⟨q', hold, ?_⟩, h.seq, h.attempted, h.numbered, h.first⟩
  calc x.drained ++ (x.up.drain max).2 ++ q' = x.drained ++ q := by rw [List.append_assoc, hq']
    _ = (accepted x.log).flatMap Record.bytes := hstream

theorem Inv.step (h : Inv size x) (h29 : 29 ≤ size) (h31 : size ≤ 2 ^ 31) (arch : BitVec 8) (act : Act) :
    Inv size (x.step arch act) := by
  obtain ⟨r, he⟩ | ⟨v, hv⟩ | ⟨max, hd⟩ := step_trace arch x act
  · exact h.emits h29 h31 he
  · rw [hv]
    exact { h with }
  · rw [hd]
    exact h.drain max

theorem inv_init (h29 : 29 ≤ size) (buffer : Nat → BitVec 8) : Inv size (St.init size buffer) :=
  ⟨rfl, ⟨[], Queued.empty (show 0 < size by omega), rfl⟩, rfl,
    rfl, by intro i p hp; simp [St.init] at hp, by intro p hp; simp [St.init] at hp⟩

theorem inv_run (h29 : 29 ≤ size) (h31 : size ≤ 2 ^ 31) (arch : BitVec 8) (acts : List Act) (h : Inv size x) :
    Inv size (x.run arch acts) := by
  induction acts generalizing x with
  | nil => exact h
  | cons act acts ih => exact ih (h.step h29 h31 arch act)

end Runs

end KickOS.Trace
