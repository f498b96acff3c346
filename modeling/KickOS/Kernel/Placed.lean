import KickOS.Kernel.Core

/-! Where every thread is linked.

One intrusive node serves the ready lists, the wait queues and the reply donors, so a thread is on one of them at
most. `Placed s flying` says that each thread is where its state and its wait edge say; the threads of `flying` are
parked but taken off every list, on their way to another list or to a wake. -/

namespace KickOS
open Function (update update_apply update_self)

/-- A list a parked thread can be linked on. -/
inductive Place where
  | send (e : Eid)
  | recv (e : Eid)
  | record (m : Rid)
  | reply (server : Tid)
  deriving DecidableEq, Repr

/-- The list a wait edge names; a queueless kind names none. -/
def WaitEdge.place : WaitEdge → Option Place
  | .mutex m | .word m => some (.record m)
  | .epSend e => some (.send e)
  | .epRecv e => some (.recv e)
  | .epReply r => some (.reply r)
  | .none | .notify _ | .sleep | .join _ | .taskEmpty _ | .console => Option.none

/-- What `wait_queue` holds for a thread on this list: the reply donors are no wait queue. -/
def Place.queue : Place → Option Queue
  | .send e => some (.send e)
  | .recv e => some (.recv e)
  | .record m => some (.record m)
  | .reply _ => none

def Queue.place : Queue → Place
  | .send e => .send e
  | .recv e => .recv e
  | .record m => .record m

/-- What the placement of a thread reads of it. -/
def Thread.placing (x : Thread) : ThreadState × Nat × WaitEdge × Option Queue × List Tid × Bool :=
  (x.state, x.prio, x.edge, x.queue, x.replyWaiters, x.onTimer)

namespace Kernel

variable {s s' : Kernel} {D : List Tid} {t c w u : Tid} {p : Nat} {pl : Place}

def listOf (s : Kernel) : Place → List Tid
  | .send e => (s.ep e).sendWaiters
  | .recv e => (s.ep e).recvWaiters
  | .record m => (s.wrec m).waiters
  | .reply r => (s.thr r).replyWaiters

def Runnable (s : Kernel) (t : Tid) : Prop := (s.thr t).state = .ready ∨ (s.thr t).state = .running

/-- A parked thread is on the one list its edge names, or on none for a queueless kind. -/
structure Parked (s : Kernel) (t : Tid) : Prop where
  edge : (s.thr t).edge ≠ .none
  mem : ∀ pl, (s.thr t).edge.place = some pl → t ∈ s.listOf pl
  queue : (s.thr t).queue = (s.thr t).edge.place.bind Place.queue

/-- The ready lists hold the runnable threads, each once and at its own level. -/
structure Readied (s : Kernel) : Prop where
  mem : ∀ t p, t ∈ s.ready p ↔ s.Runnable t ∧ (s.thr t).prio = p
  nodup : ∀ p, (s.ready p).Nodup
  bound : ∀ t, s.Runnable t → t < s.count

/-- The wait lists hold the parked threads, each on the list of its edge. -/
structure Linked (s : Kernel) (D : List Tid) : Prop where
  at_rest : ∀ t, (s.thr t).state ≠ .blocked → (s.thr t).edge = .none ∧ (s.thr t).queue = none
  parked : ∀ t, (s.thr t).state = .blocked → t ∉ D → s.Parked t
  flying : ∀ t ∈ D, (s.thr t).state = .blocked
  listed : ∀ pl, ∀ t ∈ s.listOf pl, (s.thr t).edge.place = some pl ∧ t ∉ D
  nodup : ∀ pl, (s.listOf pl).Nodup
  bound : ∀ t, (s.thr t).state = .blocked → t < s.count

/-- Only parked threads are on the timer list. -/
structure Timed (s : Kernel) : Prop where
  mem : ∀ t, t ∈ s.sleepq ↔ (s.thr t).onTimer = true
  nodup : s.sleepq.Nodup
  blocked : ∀ t ∈ s.sleepq, (s.thr t).state = .blocked

structure Placed (s : Kernel) (D : List Tid) : Prop where
  ready : Readied s
  timed : Timed s
  links : Linked s D

/-! ### What the invariants read -/

theorem Readied.same (h : Readied s) (hn : s'.count = s.count) (hr : s'.ready = s.ready) (hs : ∀ t, s'.Runnable t ↔ s.Runnable t)
    (hp : ∀ t, s.Runnable t → (s'.thr t).prio = (s.thr t).prio) : Readied s' where
  mem t p := by
    rw [hr, h.mem, hs]
    exact and_congr_right fun ht => by rw [hp t ht]
  nodup p := by rw [hr]; exact h.nodup p
  bound t ht := by rw [hn]; exact h.bound t ((hs t).mp ht)

theorem Timed.same (h : Timed s) (hq : s'.sleepq = s.sleepq) (ht : ∀ t, (s'.thr t).onTimer = (s.thr t).onTimer)
    (hb : ∀ t, (s.thr t).state = .blocked → (s'.thr t).state = .blocked) : Timed s' where
  mem t := by rw [hq, ht]; exact h.mem t
  nodup := by rw [hq]; exact h.nodup
  blocked t hm := hb t (h.blocked t (by rwa [hq] at hm))

theorem Timed.same_of_ne (h : Timed s) (hq : s'.sleepq = s.sleepq) (ht : t ∉ s.sleepq) (ho : (s'.thr t).onTimer = false)
    (hx : ∀ u, u ≠ t → s'.thr u = s.thr u) : Timed s' where
  mem u := by
    rw [hq]
    by_cases hu : u = t
    · subst hu; simp [ht, ho]
    · rw [hx u hu]; exact h.mem u
  nodup := by rw [hq]; exact h.nodup
  blocked u hm := by
    rw [hq] at hm
    rw [hx u (fun e => ht (e ▸ hm))]
    exact h.blocked u hm

theorem Linked.same (h : Linked s D) (hn : s'.count = s.count)
    (hb : ∀ t, (s'.thr t).state = .blocked ↔ (s.thr t).state = .blocked) (he : ∀ t, (s'.thr t).edge = (s.thr t).edge)
    (hq : ∀ t, (s'.thr t).queue = (s.thr t).queue) (hl : ∀ pl, s'.listOf pl = s.listOf pl) : Linked s' D where
  at_rest t ht := by
    rw [he, hq]
    exact h.at_rest t fun hb' => ht ((hb t).mpr hb')
  parked t ht hD := by
    obtain ⟨hedge, hm, hqueue⟩ := h.parked t ((hb t).mp ht) hD
    exact ⟨by rwa [he], fun pl => by simpa only [he, hl] using hm pl, by rwa [he, hq]⟩
  flying t hD := (hb t).mpr (h.flying t hD)
  listed pl t hm := by
    rw [he]
    exact h.listed pl t (by rwa [← hl])
  nodup pl := by rw [hl]; exact h.nodup pl
  bound t ht := by rw [hn]; exact h.bound t ((hb t).mp ht)

theorem edge_core (h : s'.core = s.core) (t : Tid) : (s'.thr t).edge = (s.thr t).edge :=
  core_read (fun k => (k.thr t).edge) h fun _ => rfl

theorem queue_core (h : s'.core = s.core) (t : Tid) : (s'.thr t).queue = (s.thr t).queue :=
  core_read (fun k => (k.thr t).queue) h fun _ => rfl

theorem listOf_core (h : s'.core = s.core) (pl : Place) : s'.listOf pl = s.listOf pl :=
  core_read (fun k => k.listOf pl) h fun _ => by cases pl <;> rfl

theorem Linked.of_core (h : Linked s D) (hc : s'.core = s.core)
    (hb : ∀ t, (s'.thr t).state = .blocked ↔ (s.thr t).state = .blocked) : Linked s' D :=
  h.same (core_read Kernel.count hc fun _ => rfl) hb (edge_core hc) (queue_core hc) (listOf_core hc)

theorem listOf_onThr {f : Thread → Thread} (hf : (f (s.thr t)).replyWaiters = (s.thr t).replyWaiters) :
    (s.onThr t f).listOf pl = s.listOf pl := by
  cases pl with
  | reply r => by_cases hr : r = t <;> simp [listOf, onThr, setThr, hr, hf]
  | _ => rfl

theorem listOf_onRec {m : Rid} {f : WordRecord → WordRecord} (hf : (f (s.wrec m)).waiters = (s.wrec m).waiters) :
    (s.onRec m f).listOf pl = s.listOf pl := by
  cases pl with
  | record i => by_cases hi : i = m <;> simp [listOf, onRec, hi, hf]
  | _ => rfl

theorem field_onThr {α : Type} {f : Thread → Thread} (g : Thread → α) (hf : g (f (s.thr t)) = g (s.thr t)) (u : Tid) :
    g ((s.onThr t f).thr u) = g (s.thr u) := by
  by_cases hu : u = t
  · subst hu; simpa [onThr, setThr] using hf
  · simp [onThr, setThr, hu]

theorem Placed.onThr {f : Thread → Thread} (h : Placed s D) (hf : (f (s.thr t)).placing = (s.thr t).placing) :
    Placed (s.onThr t f) D := by
  have hx := field_onThr (s := s) Thread.placing hf
  simp only [Thread.placing, Prod.mk.injEq] at hf hx
  exact ⟨h.ready.same rfl rfl (fun u => by simp only [Runnable, (hx u).1]) (fun u _ => (hx u).2.1),
    h.timed.same rfl (fun u => (hx u).2.2.2.2.2) (fun u hb => (hx u).1.trans hb),
    h.links.same rfl (fun u => by rw [(hx u).1]) (fun u => (hx u).2.2.1) (fun u => (hx u).2.2.2.1)
      fun _ => listOf_onThr hf.2.2.2.2.1⟩

theorem Placed.onRec {m : Rid} {f : WordRecord → WordRecord} (h : Placed s D)
    (hf : (f (s.wrec m)).waiters = (s.wrec m).waiters) : Placed (s.onRec m f) D :=
  ⟨h.ready.same rfl rfl (fun _ => Iff.rfl) (fun _ _ => rfl), h.timed.same rfl (fun _ => rfl) (fun _ => id),
    h.links.same rfl (fun _ => Iff.rfl) (fun _ => rfl) (fun _ => rfl) fun _ => listOf_onRec hf⟩

theorem Placed.of_eq (h : Placed s D) (hn : s'.count = s.count) (ht : s'.thr = s.thr) (hr : s'.ready = s.ready)
    (he : s'.ep = s.ep) (hw : s'.wrec = s.wrec) (hq : s'.sleepq = s.sleepq) : Placed s' D :=
  ⟨h.ready.same hn hr (fun t => by rw [Runnable, Runnable, ht]) (fun t _ => by rw [ht]),
    h.timed.same hq (fun t => by rw [ht]) (fun t hb => by rwa [ht]),
    h.links.same hn (fun t => by rw [ht]) (fun t => by rw [ht]) (fun t => by rw [ht]) fun pl => by
      cases pl <;> simp [listOf, ht, he, hw]⟩

/-! ### The scheduler -/

theorem Linked.not_flying (h : Linked s D) (hc : s.Runnable c) : c ∉ D := by
  intro hm
  rcases hc with hc | hc <;> simp [h.flying c hm] at hc

theorem Linked.not_listed (h : Linked s D) (pl : Place) (hc : (s.thr c).state ≠ .blocked) : c ∉ s.listOf pl := by
  intro hm
  have := (h.listed pl c hm).1
  simp [(h.at_rest c hc).1, WaitEdge.place] at this

theorem Runnable.ne_blocked (hc : s.Runnable c) : (s.thr c).state ≠ .blocked := by
  rcases hc with hc | hc <;> simp [hc]

theorem Readied.move (h : Readied s) (hr : s.Runnable t) (hp : (s.thr t).prio ≠ p) :
    Readied (((s.rqRemove t).onThr t fun x => { x with prio := p }).rqPushBack t) := by
  have hnot : t ∉ s.ready p := fun hm => hp ((h.mem t p).mp hm).2
  have hself : t ∉ (s.ready (s.thr t).prio).erase t := (h.nodup _).not_mem_erase
  refine ⟨fun u q => ?_, fun q => ?_, fun u hu => h.bound u ?_⟩
  · have hu := h.mem u q
    by_cases hut : u = t
    · subst hut
      by_cases hq : p = q
      · subst hq
        simp_all [rqRemove, rqPushBack, onThr, setThr, Runnable]
      · by_cases hq' : (s.thr u).prio = q <;>
          simp_all [rqRemove, rqPushBack, onThr, setThr, Runnable, update_apply, eq_comm]
    · have hn := (h.nodup (s.thr t).prio).mem_erase_iff (a := u) (b := t)
      by_cases hq : q = p <;> by_cases hq' : q = (s.thr t).prio <;>
        simp_all [rqRemove, rqPushBack, onThr, setThr, Runnable, update_apply]
  · have hn := h.nodup q
    by_cases hq : q = p
    · subst hq
      simp [rqRemove, rqPushBack, onThr, setThr, hp.symm, List.nodup_append, hn]
      exact fun a ha e => hnot (e ▸ ha)
    · by_cases hq' : q = (s.thr t).prio <;>
        simp_all [rqRemove, rqPushBack, onThr, setThr, update_apply, List.Nodup.erase]
  · by_cases hut : u = t
    · exact hut ▸ hr
    · simpa [rqRemove, rqPushBack, onThr, setThr, Runnable, hut] using hu

theorem Placed.setPrio (h : Placed s D) : Placed (s.setPrio t p) D := by
  refine ⟨?_, h.timed.same ?_ (fun u => ?_) (fun u hb => ?_), h.links.of_core setPrio_core fun u => ?_⟩
  rotate_left
  · unfold Kernel.setPrio; split_ifs <;> rfl
  · rw [setPrio_thr]
    by_cases hu : u = t <;> simp [hu]
  · rw [setPrio_thr]
    by_cases hu : u = t
    · subst hu; simpa using hb
    · simpa [hu] using hb
  · rw [setPrio_thr]
    by_cases hu : u = t <;> simp [hu]
  unfold Kernel.setPrio
  split_ifs with hp hr
  · exact h.ready
  · exact h.ready.move hr hp
  · have hx : ∀ u, s.Runnable u → u ≠ t := fun u hu e => hr (e ▸ hu)
    refine h.ready.same rfl rfl (fun u => ?_) fun u hu => ?_
    · simp only [Runnable, field_onThr Thread.state (t := t) (f := fun x => { x with prio := p }) rfl u]
    · simp [Kernel.onThr, setThr, hx u hu]

theorem Readied.makeReady (h : Readied s) (ht : ¬ s.Runnable t) (hb : t < s.count) : Readied (s.makeReady t) := by
  have hnot : ∀ q, t ∉ s.ready q := fun q hm => ht ((h.mem t q).mp hm).1
  refine ⟨fun u q => ?_, fun q => ?_, fun u hu => ?_⟩
  · have hu := h.mem u q
    by_cases hut : u = t
    · subst hut
      by_cases hq : (s.thr u).prio = q
      · subst hq
        simp [Kernel.makeReady, rqPushBack, onThr, setThr, Runnable]
      · simp_all [Kernel.makeReady, rqPushBack, onThr, setThr, Runnable, eq_comm]
    · by_cases hq : q = (s.thr t).prio <;>
        simp_all [Kernel.makeReady, rqPushBack, onThr, setThr, Runnable]
  · have hn := h.nodup q
    by_cases hq : q = (s.thr t).prio
    · subst hq
      simp [Kernel.makeReady, rqPushBack, onThr, setThr, List.nodup_append, hn]
      exact fun a ha e => hnot _ (e ▸ ha)
    · simpa [Kernel.makeReady, rqPushBack, onThr, setThr, update_apply, hq] using hn
  · by_cases hut : u = t
    · exact hut ▸ hb
    · exact h.bound u (by simpa [Kernel.makeReady, rqPushBack, onThr, setThr, Runnable, hut] using hu)

theorem Placed.makeReady (h : Placed s (t :: D)) (hD : t ∉ D) (he : (s.thr t).edge = .none)
    (hq : (s.thr t).queue = none) (ho : (s.thr t).onTimer = false) : Placed (s.makeReady t) D := by
  have hb := h.links.flying t (by simp)
  have hl : ∀ pl, (s.makeReady t).listOf pl = s.listOf pl := listOf_core makeReady_core
  have hself : ((s.makeReady t).thr t).state = .ready := by simp [Kernel.makeReady, rqPushBack, Kernel.onThr, setThr]
  have hx : ∀ u, u ≠ t → (s.makeReady t).thr u = s.thr u := fun u hu => by
    simp [Kernel.makeReady, rqPushBack, Kernel.onThr, setThr, hu]
  have hedge : ∀ u, ((s.makeReady t).thr u).edge = (s.thr u).edge := edge_core makeReady_core
  have hqueue : ∀ u, ((s.makeReady t).thr u).queue = (s.thr u).queue := queue_core makeReady_core
  refine ⟨h.ready.makeReady (fun hr => h.links.not_flying hr (by simp)) (h.links.bound t hb),
    h.timed.same_of_ne rfl (t := t) (by simp [h.timed.mem, ho]) ?_ hx, fun u hu => ?_, fun u hu hD' => ?_,
    fun u hu => ?_, fun pl u hu => ?_, fun pl => ?_, fun u hu => ?_⟩
  · simp [Kernel.makeReady, rqPushBack, Kernel.onThr, setThr, ho]
  · rw [hedge, hqueue]
    by_cases hut : u = t
    · rw [hut]; exact ⟨he, hq⟩
    · exact h.links.at_rest u (by rwa [hx u hut] at hu)
  · have hut : u ≠ t := by
      rintro rfl
      rw [hself] at hu
      cases hu
    rw [hx u hut] at hu
    obtain ⟨h1, h2, h3⟩ := h.links.parked u hu (by simp [hut, hD'])
    exact ⟨by rwa [hedge], fun pl => by rw [hedge, hl]; exact h2 pl, by rwa [hedge, hqueue]⟩
  · rw [hx u (fun e => hD (e ▸ hu))]
    exact h.links.flying u (by simp [hu])
  · rw [hedge]
    obtain ⟨h1, h2⟩ := h.links.listed pl u (by rwa [hl] at hu)
    exact ⟨h1, fun hm => h2 (by simp [hm])⟩
  · rw [hl]; exact h.links.nodup pl
  · refine h.links.bound u ?_
    by_cases hut : u = t
    · rw [hut]; exact hb
    · rwa [hx u hut] at hu

theorem Placed.sleepqRemove (h : Placed s D) :
    Placed (s.sleepqRemove t) D ∧ ((s.sleepqRemove t).thr t).onTimer = false := by
  have hm := h.timed.mem t
  unfold Kernel.sleepqRemove
  split_ifs with hs
  · have hx : ∀ u, u ≠ t → (s.onThr t fun x => { x with onTimer := false }).thr u = s.thr u :=
      fun u hu => by simp [Kernel.onThr, setThr, hu]
    have hself : ((s.onThr t fun x => { x with onTimer := false }).thr t) = { s.thr t with onTimer := false } := by
      simp [Kernel.onThr, setThr]
    have hst : ∀ u, ((s.onThr t fun x => { x with onTimer := false }).thr u).state = (s.thr u).state :=
      field_onThr Thread.state rfl
    have hpr : ∀ u, ((s.onThr t fun x => { x with onTimer := false }).thr u).prio = (s.thr u).prio :=
      field_onThr Thread.prio rfl
    refine ⟨⟨h.ready.same rfl rfl (fun u => by simp only [Runnable, hst]) (fun u _ => hpr u),
      ⟨fun u => ?_, h.timed.nodup.erase t, fun u hu => ?_⟩,
      h.links.of_core (core_onThr (f := fun x => { x with onTimer := false }) rfl) (fun u => by rw [hst])⟩, ?_⟩
    · rw [h.timed.nodup.mem_erase_iff]
      by_cases hu : u = t
      · subst hu; simp [hself]
      · simpa [hu, hx u hu] using h.timed.mem u
    · rw [hst]; exact h.timed.blocked u (List.mem_of_mem_erase hu)
    · rw [hself]
  · exact ⟨h, by simpa [hm] using hs⟩

theorem Placed.deadlineCancel (h : Placed s D) :
    Placed (s.deadlineCancel t) D ∧ ((s.deadlineCancel t).thr t).onTimer = false := by
  unfold Kernel.deadlineCancel
  split_ifs with ho
  · exact h.sleepqRemove
  · exact ⟨h, by simpa using ho⟩

theorem mem_sleepqInsertAt (d : Nat) (l : List Tid) : u ∈ s.sleepqInsertAt t d l ↔ u = t ∨ u ∈ l := by
  induction l with
  | nil => simp [sleepqInsertAt]
  | cons v rest ih =>
    unfold sleepqInsertAt
    split_ifs
    · simp only [List.mem_cons, ih]; tauto
    · simp

theorem nodup_sleepqInsertAt (d : Nat) (l : List Tid) (hl : l.Nodup) (ht : t ∉ l) : (s.sleepqInsertAt t d l).Nodup := by
  induction l with
  | nil => simp [sleepqInsertAt]
  | cons v rest ih =>
    obtain ⟨h1, h2⟩ := List.nodup_cons.mp hl
    simp only [List.mem_cons, not_or] at ht
    unfold sleepqInsertAt
    split_ifs
    · refine List.nodup_cons.mpr ⟨fun hm => ?_, ih h2 ht.2⟩
      rcases (mem_sleepqInsertAt d rest).mp hm with e | hm
      · exact ht.1 e.symm
      · exact h1 hm
    · exact List.nodup_cons.mpr ⟨by simpa using ht, hl⟩

theorem Timed.arm {d : Option Nat} (h : Timed s) (ho : (s.thr t).onTimer = false)
    (hq : s'.sleepq = (s.deadlineArm t d).sleepq) (ht : ∀ u, (s'.thr u).onTimer = ((s.deadlineArm t d).thr u).onTimer)
    (hb : ∀ u, (s.thr u).state = .blocked ∨ u = t → (s'.thr u).state = .blocked) : Timed s' := by
  cases d with
  | none => exact h.same hq ht fun u hu => hb u (.inl hu)
  | some d =>
    have hnot : t ∉ s.sleepq := by simp [h.mem, ho]
    have hq' : s'.sleepq = s.sleepqInsertAt t d s.sleepq := hq
    refine ⟨fun u => ?_, ?_, fun u hu => ?_⟩
    · rw [hq', mem_sleepqInsertAt, ht]
      by_cases hu : u = t
      · simp [hu, Kernel.deadlineArm, Kernel.onThr, setThr]
      · simpa [hu, Kernel.deadlineArm, Kernel.onThr, setThr] using h.mem u
    · rw [hq']; exact nodup_sleepqInsertAt d _ h.nodup hnot
    · rw [hq', mem_sleepqInsertAt] at hu
      exact hb u (hu.elim .inr fun hm => .inl (h.blocked u hm))

theorem deadlineArm_state {d : Option Nat} (u : Tid) : ((s.deadlineArm t d).thr u).state = (s.thr u).state := by
  cases d with
  | none => rfl
  | some d => exact field_onThr (f := fun x => { x with onTimer := true, deadline := d }) Thread.state rfl u

theorem deadlineArm_prio {d : Option Nat} (u : Tid) : ((s.deadlineArm t d).thr u).prio = (s.thr u).prio := by
  cases d with
  | none => rfl
  | some d => exact field_onThr (f := fun x => { x with onTimer := true, deadline := d }) Thread.prio rfl u

theorem deadlineArm_dying {d : Option Nat} (u : Tid) : ((s.deadlineArm t d).thr u).dying = (s.thr u).dying := by
  cases d with
  | none => rfl
  | some d => exact field_onThr (f := fun x => { x with onTimer := true, deadline := d }) Thread.dying rfl u

theorem deadlineArm_ready {d : Option Nat} : (s.deadlineArm t d).ready = s.ready := by cases d <;> rfl

theorem deadlineArm_count {d : Option Nat} : (s.deadlineArm t d).count = s.count := by cases d <;> rfl

theorem Readied.deadlineArm {d : Option Nat} (h : Readied s) : Readied (s.deadlineArm t d) :=
  h.same deadlineArm_count deadlineArm_ready (fun u => by simp only [Runnable, deadlineArm_state])
    fun u _ => deadlineArm_prio u

theorem Linked.deadlineArm {d : Option Nat} (h : Linked s D) : Linked (s.deadlineArm t d) D :=
  h.of_core deadlineArm_core fun u => by rw [deadlineArm_state]

theorem Placed.deadlineArm {d : Option Nat} (h : Placed s D) (hb : (s.thr t).state = .blocked)
    (ho : (s.thr t).onTimer = false) : Placed (s.deadlineArm t d) D := by
  refine ⟨h.ready.deadlineArm, h.timed.arm ho rfl (fun _ => rfl) fun u hu => ?_, h.links.deadlineArm⟩
  rw [deadlineArm_state]
  rcases hu with hu | rfl
  · exact hu
  · exact hb

theorem Placed.wakeNoResched (h : Placed s (t :: D)) (hD : t ∉ D) (he : (s.thr t).edge = .none)
    (hq : (s.thr t).queue = none) : Placed (s.wakeNoResched t).1 D ∧ (s.wakeNoResched t).2 = true := by
  obtain ⟨h1, ho⟩ := h.deadlineCancel (t := t)
  have hb := h1.links.flying t (by simp)
  have he1 := edge_core (deadlineCancel_core (s := s) (t := t)) t
  have hq1 := queue_core (deadlineCancel_core (s := s) (t := t)) t
  simp only [Kernel.wakeNoResched, hb, ne_eq, not_true_eq_false, ↓reduceIte, and_true]
  exact h1.makeReady hD (he1.trans he) (hq1.trans hq) ho

theorem Placed.setState {x : ThreadState} (h : Placed s D) (ht : s.Runnable t) (hx : x = .ready ∨ x = .running) :
    Placed (s.onThr t fun y => { y with state := x }) D := by
  have hb : ∀ u, ((s.onThr t fun y => { y with state := x }).thr u).state = .blocked ↔ (s.thr u).state = .blocked := by
    intro u
    by_cases hu : u = t
    · subst hu
      have := ht.ne_blocked
      rcases hx with rfl | rfl <;> simp [Kernel.onThr, setThr, this]
    · simp [Kernel.onThr, setThr, hu]
  refine ⟨h.ready.same rfl rfl (fun u => ?_) (fun u _ => field_onThr Thread.prio rfl u),
    h.timed.same rfl (field_onThr Thread.onTimer rfl) (fun u hu => (hb u).mpr hu), h.links.of_core (core_onThr rfl) hb⟩
  by_cases hu : u = t
  · subst hu
    simpa [Runnable, Kernel.onThr, setThr, hx] using ht
  · simp [Runnable, Kernel.onThr, setThr, hu]

theorem Placed.leaveRunning (h : Placed s D) : Placed s.leaveRunning D := by
  unfold Kernel.leaveRunning
  split
  · exact h
  · split_ifs with hr
    · exact h.setState (.inr hr) (.inl rfl)
    · exact h

theorem leaveRunning_runnable (ht : s.Runnable t) : s.leaveRunning.Runnable t := by
  unfold Kernel.leaveRunning
  split
  · exact ht
  · rename_i prev _
    split_ifs with hr
    · by_cases hu : t = prev
      · subst hu; simp [Runnable, onThr, setThr]
      · simpa [Runnable, onThr, setThr, hu] using ht
    · exact ht

theorem Placed.switchBook {next : Option Tid} (h : Placed s D) (hn : ∀ t, next = some t → s.Runnable t) :
    Placed (s.switchBook next) D := by
  cases next with
  | none => exact h.leaveRunning.of_eq rfl rfl rfl rfl rfl rfl
  | some t =>
    have h1 : Placed { s.leaveRunning with current := some t } D := h.leaveRunning.of_eq rfl rfl rfl rfl rfl rfl
    have h2 := h1.setState (t := t) (x := .running) (leaveRunning_runnable (hn t rfl)) (.inr rfl)
    unfold Kernel.switchBook
    dsimp only
    split_ifs
    · exact (h2.onThr rfl).onThr rfl
    · exact h2.onThr rfl

theorem policyPickNext_mem (h : s.policyPickNext = some t) : ∃ p, t ∈ s.ready p := by
  unfold policyPickNext at h
  split at h
  · cases h
  · exact ⟨_, List.mem_of_mem_head? h⟩

theorem Placed.pickAndSeat (h : Placed s D) : Placed s.pickAndSeat D := by
  unfold Kernel.pickAndSeat
  dsimp only
  split_ifs
  · exact h
  · refine h.switchBook fun t ht => ?_
    obtain ⟨p, hp⟩ := policyPickNext_mem ht
    exact ((h.ready.mem t p).mp hp).1

theorem Placed.reschedAfterWake (h : Placed s D) : Placed (s.reschedAfterWake t) D := by
  unfold Kernel.reschedAfterWake
  split
  · exact h.pickAndSeat
  · split_ifs
    · exact h
    · exact h.pickAndSeat

theorem Placed.wake (h : Placed s (t :: D)) (hD : t ∉ D) (he : (s.thr t).edge = .none) (hq : (s.thr t).queue = none) :
    Placed (s.wake t) D := by
  obtain ⟨h1, h2⟩ := h.wakeNoResched hD he hq
  simp only [Kernel.wake, h2, ↓reduceIte]
  exact h1.reschedAfterWake

/-! ### Parks and unlinks -/

theorem queueOf_eq (q : Queue) : s.queueOf q = s.listOf q.place := by cases q <;> rfl

theorem listOf_onQueue (q : Queue) (f : List Tid → List Tid) (pl : Place) :
    (s.onQueue q f).listOf pl = if pl = q.place then f (s.listOf pl) else s.listOf pl := by
  cases q with
  | send e | recv e =>
    cases pl with
    | send i | recv i =>
      by_cases hi : i = e <;> simp [onQueue, onEp, listOf, Queue.place, hi]
    | _ => rfl
  | record m =>
    cases pl with
    | record i => by_cases hi : i = m <;> simp [onQueue, onRec, listOf, Queue.place, hi]
    | _ => rfl

@[simp] theorem onQueue_thr (q : Queue) (f : List Tid → List Tid) : (s.onQueue q f).thr = s.thr := by
  cases q <;> rfl

@[simp] theorem onQueue_ready (q : Queue) (f : List Tid → List Tid) : (s.onQueue q f).ready = s.ready := by
  cases q <;> rfl

@[simp] theorem onQueue_count (q : Queue) (f : List Tid → List Tid) : (s.onQueue q f).count = s.count := by
  cases q <;> rfl

@[simp] theorem onQueue_sleepq (q : Queue) (f : List Tid → List Tid) : (s.onQueue q f).sleepq = s.sleepq := by
  cases q <;> rfl

theorem Place.queue_place (q : Queue) : q.place.queue = some q := by cases q <;> rfl

theorem Placed.onFlying {f : Thread → Thread} (h : Placed s D) (ht : t ∈ D)
    (hs : (f (s.thr t)).state = (s.thr t).state) (hp : (f (s.thr t)).prio = (s.thr t).prio)
    (hr : (f (s.thr t)).replyWaiters = (s.thr t).replyWaiters) (ho : (f (s.thr t)).onTimer = (s.thr t).onTimer) :
    Placed (s.onThr t f) D := by
  have hst := field_onThr (s := s) (t := t) Thread.state hs
  have hx : ∀ u, u ≠ t → (s.onThr t f).thr u = s.thr u := fun u hu => by simp [Kernel.onThr, setThr, hu]
  have hb := h.links.flying t ht
  refine ⟨h.ready.same rfl rfl (fun u => by simp only [Runnable, hst]) (fun u _ => field_onThr Thread.prio hp u),
    h.timed.same rfl (field_onThr Thread.onTimer ho) (fun u hu => (hst u).trans hu), fun u hu => ?_,
      fun u hu hD => ?_, fun u hu => ?_, fun pl u hu => ?_, fun pl => ?_,
    fun u hu => h.links.bound u (by rwa [hst] at hu)⟩
  · have hut : u ≠ t := by
      rintro rfl
      exact hu ((hst u).trans hb)
    rw [hx u hut] at hu ⊢
    exact h.links.at_rest u hu
  · have hut : u ≠ t := fun e => hD (e ▸ ht)
    rw [hx u hut] at hu
    obtain ⟨h1, h2, h3⟩ := h.links.parked u hu hD
    exact ⟨by rwa [hx u hut], fun pl => by rw [hx u hut, listOf_onThr hr]; exact h2 pl, by rwa [hx u hut]⟩
  · rw [hst]; exact h.links.flying u hu
  · rw [listOf_onThr hr] at hu
    obtain ⟨h1, h2⟩ := h.links.listed pl u hu
    rw [hx u (fun e => h2 (e ▸ ht))]
    exact ⟨h1, h2⟩
  · rw [listOf_onThr hr]; exact h.links.nodup pl

theorem Placed.clearWaitEdge (h : Placed s D) (ht : t ∈ D) : Placed (s.clearWaitEdge t) D := h.onFlying ht rfl rfl rfl rfl

@[simp] theorem clearWaitEdge_edge : ((s.clearWaitEdge t).thr t).edge = .none := by
  simp [Kernel.clearWaitEdge, onThr, setThr]

@[simp] theorem clearWaitEdge_queue : ((s.clearWaitEdge t).thr t).queue = none := by
  simp [Kernel.clearWaitEdge, onThr, setThr]

theorem Readied.leave {x : ThreadState} (h : Readied s) (hc : s.Runnable c) (hx : x ≠ .ready ∧ x ≠ .running) :
    Readied ((s.onThr c fun y => { y with state := x }).rqRemove c) := by
  have hthr : ∀ u, u ≠ c → ((s.onThr c fun y => { y with state := x }).rqRemove c).thr u = s.thr u := fun u hu => by
    simp [rqRemove, Kernel.onThr, setThr, hu]
  have hself : ¬ ((s.onThr c fun y => { y with state := x }).rqRemove c).Runnable c := by
    simp [Runnable, rqRemove, Kernel.onThr, setThr, hx.1, hx.2]
  have hready : ((s.onThr c fun y => { y with state := x }).rqRemove c).ready =
      update s.ready (s.thr c).prio ((s.ready (s.thr c).prio).erase c) := by
    simp [rqRemove, Kernel.onThr, setThr]
  refine ⟨fun u q => ?_, fun q => ?_, fun u hu => h.bound u ?_⟩
  · have hu := h.mem u q
    have hn := (h.nodup (s.thr c).prio).mem_erase_iff (a := u) (b := c)
    rw [hready]
    by_cases huc : u = c
    · subst huc
      by_cases hq : q = (s.thr u).prio
      · subst hq; simp [hn, hself]
      · simp [hq, hu, hself, eq_comm]
    · by_cases hq : q = (s.thr c).prio <;> simp_all [Runnable]
  · rw [hready]
    by_cases hq : q = (s.thr c).prio
    · subst hq; simpa using (h.nodup _).erase c
    · simpa [update_apply, hq] using h.nodup q
  · by_cases huc : u = c
    · exact huc ▸ hc
    · simpa [Runnable, hthr u huc] using hu

theorem Placed.parkQueueless {edge : WaitEdge} (h : Placed s D) (hc : s.Runnable c) :
    Placed (s.parkQueueless c edge) (c :: D) := by
  have hx : ∀ u, u ≠ c → (s.parkQueueless c edge).thr u = s.thr u := fun u hu => by
    simp [Kernel.parkQueueless, rqRemove, Kernel.onThr, setThr, hu]
  have hself : (s.parkQueueless c edge).thr c =
      { s.thr c with state := .blocked, queue := none, edge := edge } := by
    simp [Kernel.parkQueueless, rqRemove, Kernel.onThr, setThr]
  have hl : ∀ pl, (s.parkQueueless c edge).listOf pl = s.listOf pl := fun pl => by
    cases pl with
    | reply r => by_cases hr : r = c <;> simp [listOf, hr, hself, hx]
    | _ => rfl
  have hready := h.ready.leave (x := .blocked) hc (by simp)
  refine ⟨hready.same rfl rfl (fun u => ?_) (fun u _ => ?_), h.timed.same rfl (fun u => ?_) (fun u hu => ?_), fun u hu => ?_,
    fun u hu hD => ?_, fun u hu => ?_, fun pl u hu => ?_, fun pl => ?_, fun u hu => ?_⟩
  · by_cases huc : u = c
    · subst huc; simp [Runnable, hself, rqRemove, Kernel.onThr, setThr]
    · simp [Runnable, hx u huc, rqRemove, Kernel.onThr, setThr, huc]
  · by_cases huc : u = c
    · subst huc; simp [hself, rqRemove, Kernel.onThr, setThr]
    · simp [hx u huc, rqRemove, Kernel.onThr, setThr, huc]
  · by_cases huc : u = c
    · subst huc; rw [hself]
    · rw [hx u huc]
  · by_cases huc : u = c
    · subst huc; rw [hself]
    · rw [hx u huc]; exact hu
  · have huc : u ≠ c := by
      rintro rfl
      simp [hself] at hu
    rw [hx u huc] at hu ⊢
    exact h.links.at_rest u hu
  · simp only [List.mem_cons, not_or] at hD
    rw [hx u hD.1] at hu
    obtain ⟨h1, h2, h3⟩ := h.links.parked u hu hD.2
    exact ⟨by rwa [hx u hD.1], fun pl => by rw [hx u hD.1, hl]; exact h2 pl, by rwa [hx u hD.1]⟩
  · by_cases huc : u = c
    · simp [huc, hself]
    · rw [hx u huc]
      exact h.links.flying u (by simpa [huc] using hu)
  · rw [hl] at hu
    have huc : u ≠ c := fun e => h.links.not_listed _ hc.ne_blocked (e ▸ hu)
    rw [hx u huc]
    simpa [huc] using h.links.listed pl u hu
  · rw [hl]; exact h.links.nodup pl
  · by_cases huc : u = c
    · exact huc ▸ h.ready.bound c hc
    · exact h.links.bound u (by rwa [hx u huc] at hu)

theorem parkQueueless_edge {edge : WaitEdge} : ((s.parkQueueless c edge).thr c).edge = edge := by
  simp [Kernel.parkQueueless, rqRemove, onThr, setThr]

theorem Placed.unsettle (h : Placed s D) (hb : (s.thr c).state = .blocked) (hpl : (s.thr c).edge.place = none) :
    Placed s (c :: D) := by
  refine ⟨h.ready, h.timed, h.links.at_rest, fun u hu hD' => ?_, fun u hu => ?_, fun pl u hu => ?_, h.links.nodup,
    h.links.bound⟩
  · exact h.links.parked u hu fun hm => hD' (by simp [hm])
  · rcases List.mem_cons.mp hu with rfl | hu
    · exact hb
    · exact h.links.flying u hu
  · obtain ⟨h1, h2⟩ := h.links.listed pl u hu
    refine ⟨h1, ?_⟩
    have hne : u ≠ c := by
      rintro rfl
      rw [hpl] at h1; cases h1
    simp [hne, h2]

theorem Placed.land (h : Placed s (c :: D)) (hD : c ∉ D) (pl : Place) (hpl : (s.thr c).edge.place = some pl)
    (hq : (s.thr c).queue = pl.queue) (hn : s'.count = s.count) (hready : s'.ready = s.ready)
    (hsl : s'.sleepq = s.sleepq) (hti : ∀ u, (s'.thr u).onTimer = (s.thr u).onTimer)
    (hs : ∀ u, (s'.thr u).state = (s.thr u).state) (hp : ∀ u, (s'.thr u).prio = (s.thr u).prio)
    (he : ∀ u, (s'.thr u).edge = (s.thr u).edge) (hqu : ∀ u, (s'.thr u).queue = (s.thr u).queue)
    (hother : ∀ pl', pl' ≠ pl → s'.listOf pl' = s.listOf pl')
    (hmem : ∀ u, u ∈ s'.listOf pl ↔ u = c ∨ u ∈ s.listOf pl) (hnodup : (s'.listOf pl).Nodup) : Placed s' D := by
  have hold : ∀ pl' u, u ∈ s'.listOf pl' → u ∈ s.listOf pl' ∨ (u = c ∧ pl' = pl) := fun pl' u hu => by
    by_cases hpl' : pl' = pl
    · subst hpl'
      rcases (hmem u).mp hu with rfl | hu
      · exact .inr ⟨rfl, rfl⟩
      · exact .inl hu
    · exact .inl (by rwa [hother pl' hpl'] at hu)
  have hnew : ∀ pl' u, u ∈ s.listOf pl' → u ∈ s'.listOf pl' := fun pl' u hu => by
    by_cases hpl' : pl' = pl
    · subst hpl'; exact (hmem u).mpr (.inr hu)
    · rwa [hother pl' hpl']
  refine ⟨h.ready.same hn hready (fun u => by simp only [Runnable, hs]) (fun u _ => hp u),
    h.timed.same hsl hti (fun u hu => (hs u).trans hu), fun u hu => ?_, fun u hu hD' => ?_,
    fun u hu => ?_, fun pl' u hu => ?_, fun pl' => ?_, fun u hu => by rw [hs] at hu; rw [hn]; exact h.links.bound u hu⟩
  · rw [hs] at hu
    rw [he, hqu]
    exact h.links.at_rest u hu
  · rw [hs] at hu
    by_cases huc : u = c
    · subst huc
      refine ⟨fun e => ?_, fun pl' h' => ?_, by rw [he, hqu, hpl, hq]; rfl⟩
      · rw [he] at e
        simp [e, WaitEdge.place] at hpl
      · rw [he, hpl] at h'
        cases h'
        exact (hmem u).mpr (.inl rfl)
    · obtain ⟨h1, h2, h3⟩ := h.links.parked u hu (by simp [huc, hD'])
      exact ⟨by rwa [he], fun pl' h' => hnew pl' u (h2 pl' (by rwa [← he])), by rw [he, hqu]; exact h3⟩
  · rw [hs]; exact h.links.flying u (by simp [hu])
  · rw [he]
    rcases hold pl' u hu with hu | ⟨rfl, rfl⟩
    · obtain ⟨h1, h2⟩ := h.links.listed pl' u hu
      exact ⟨h1, fun hm => h2 (by simp [hm])⟩
    · exact ⟨hpl, hD⟩
  · by_cases hpl' : pl' = pl
    · subst hpl'; exact hnodup
    · rw [hother pl' hpl']; exact h.links.nodup pl'

theorem Placed.flying_unlisted (h : Placed s D) (ht : t ∈ D) : t ∉ s.listOf pl := fun hm => (h.links.listed pl t hm).2 ht

theorem Placed.detach (h : Placed s D) (pl : Place) (ht : t ∈ s.listOf pl) (hn : s'.count = s.count) (hready : s'.ready = s.ready)
    (hsl : s'.sleepq = s.sleepq) (hti : ∀ u, (s'.thr u).onTimer = (s.thr u).onTimer)
    (hs : ∀ u, (s'.thr u).state = (s.thr u).state) (hp : ∀ u, (s'.thr u).prio = (s.thr u).prio)
    (he : ∀ u, (s'.thr u).edge = (s.thr u).edge) (hqu : ∀ u, (s'.thr u).queue = (s.thr u).queue)
    (hl : ∀ pl', s'.listOf pl' = if pl' = pl then (s.listOf pl').erase t else s.listOf pl') : Placed s' (t :: D) := by
  have hb : (s.thr t).state = .blocked := by
    by_contra hb
    exact h.links.not_listed _ hb ht
  have hself : ∀ pl', t ∉ s'.listOf pl' := fun pl' hm => by
    rw [hl] at hm
    split_ifs at hm with hpl
    · exact (h.links.nodup pl').not_mem_erase hm
    · have h1 := (h.links.listed pl' t hm).1
      rw [(h.links.listed pl t ht).1] at h1
      exact hpl (Option.some.inj h1).symm
  have hother : ∀ pl' u, u ≠ t → (u ∈ s'.listOf pl' ↔ u ∈ s.listOf pl') := fun pl' u hu => by
    rw [hl]
    split_ifs
    · exact List.mem_erase_of_ne hu
    · exact Iff.rfl
  refine ⟨h.ready.same hn hready (fun u => by simp only [Runnable, hs]) (fun u _ => hp u),
    h.timed.same hsl hti (fun u hu => (hs u).trans hu), fun u hu => ?_, fun u hu hD' => ?_,
    fun u hu => ?_, fun pl' u hu => ?_, fun pl' => ?_, fun u hu => by rw [hs] at hu; rw [hn]; exact h.links.bound u hu⟩
  · rw [hs] at hu
    rw [he, hqu]
    exact h.links.at_rest u hu
  · rw [hs] at hu
    simp only [List.mem_cons, not_or] at hD'
    obtain ⟨h1, h2, h3⟩ := h.links.parked u hu hD'.2
    exact ⟨by rwa [he], fun pl' h' => (hother pl' u hD'.1).mpr (h2 pl' (by rwa [← he])), by rw [he, hqu]; exact h3⟩
  · rw [hs]
    rcases List.mem_cons.mp hu with rfl | hu
    · exact hb
    · exact h.links.flying u hu
  · have hut : u ≠ t := fun e => hself pl' (e ▸ hu)
    rw [he]
    obtain ⟨h1, h2⟩ := h.links.listed pl' u ((hother pl' u hut).mp hu)
    exact ⟨h1, by simp [hut, h2]⟩
  · rw [hl]
    split_ifs
    · exact (h.links.nodup pl').erase t
    · exact h.links.nodup pl'

theorem sleepqInsertAt_congr (hd : ∀ u, (s'.thr u).deadline = (s.thr u).deadline) (d : Nat) (l : List Tid) :
    s'.sleepqInsertAt t d l = s.sleepqInsertAt t d l := by
  induction l with
  | nil => rfl
  | cons u rest ih => simp only [sleepqInsertAt, hd, ih]

theorem parkQueueless_deadlineArm {d : Option Nat} {edge : WaitEdge} :
    (s.deadlineArm c d).parkQueueless c edge = (s.parkQueueless c edge).deadlineArm c d := by
  cases d with
  | none => rfl
  | some d =>
    have hd : ∀ u, ((s.parkQueueless c edge).thr u).deadline = (s.thr u).deadline := fun u => by
      by_cases hu : u = c
      · subst hu; simp [Kernel.parkQueueless, rqRemove, onThr, setThr]
      · simp [Kernel.parkQueueless, rqRemove, onThr, setThr, hu]
    have hq : (s.parkQueueless c edge).sleepq = s.sleepq := rfl
    simp only [Kernel.deadlineArm, hq, sleepqInsertAt_congr hd]
    simp [Kernel.parkQueueless, rqRemove, onThr, setThr]

/-- A park on a wait queue with its limit, in front of its pass. -/
def queued (s : Kernel) (c : Tid) (q : Queue) (edge : WaitEdge) (d : Option Nat) : Kernel :=
  (((s.deadlineArm c d).parkQueueless c edge).onThr c fun x => { x with queue := some q }).onQueue q fun l => l ++ [c]

theorem wqBlock_eq {q : Queue} {edge : WaitEdge} {d : Option Nat} :
    (s.deadlineArm c d).wqBlock c q edge = (s.queued c q edge d).pickAndSeat := rfl

theorem queued_of_ne {q : Queue} {edge : WaitEdge} {d : Option Nat} (hu : u ≠ c) :
    (s.queued c q edge d).thr u = s.thr u := by
  have hd : (s.deadlineArm c d).thr u = s.thr u := by
    cases d with
    | none => rfl
    | some d => simp [Kernel.deadlineArm, onThr, setThr, hu]
  simp [queued, parkQueueless, rqRemove, onThr, setThr, hu, hd]

theorem queued_self {q : Queue} {edge : WaitEdge} {d : Option Nat} :
    (s.queued c q edge d).thr c =
      { (s.deadlineArm c d).thr c with state := .blocked, queue := some q, edge := edge } := by
  simp [queued, parkQueueless, rqRemove, onThr, setThr]

theorem queued_prio {q : Queue} {edge : WaitEdge} {d : Option Nat} (u : Tid) :
    ((s.queued c q edge d).thr u).prio = (s.thr u).prio := by
  by_cases hu : u = c
  · rw [hu, queued_self, deadlineArm_prio]
  · rw [queued_of_ne hu]

theorem queued_dying {q : Queue} {edge : WaitEdge} {d : Option Nat} (u : Tid) :
    ((s.queued c q edge d).thr u).dying = (s.thr u).dying := by
  by_cases hu : u = c
  · rw [hu, queued_self, deadlineArm_dying]
  · rw [queued_of_ne hu]

theorem Placed.queued {q : Queue} {e : WaitEdge} {d : Option Nat} (h : Placed s D) (hc : s.Runnable c)
    (hpl : e.place = some q.place) : Placed (s.queued c q e d) D := by
  have h1 : Placed (s.parkQueueless c e) (c :: D) := h.parkQueueless hc
  have hD := h.links.not_flying hc
  have hself : (s.parkQueueless c e).thr c = { s.thr c with state := .blocked, queue := none, edge := e } := by
    simp [Kernel.parkQueueless, rqRemove, Kernel.onThr, setThr]
  have ho : (s.thr c).onTimer = false := by
    by_contra ho
    exact hc.ne_blocked (h.timed.blocked c ((h.timed.mem c).mpr (by simpa using ho)))
  have h2 := h1.deadlineArm (t := c) (d := d) (by rw [hself]) (by rw [hself]; exact ho)
  have he2 : (((s.parkQueueless c e).deadlineArm c d).thr c).edge = e :=
    (edge_core deadlineArm_core c).trans parkQueueless_edge
  have h3 := h2.onFlying (t := c) (f := fun x => { x with queue := some q }) (by simp) rfl rfl rfl rfl
  unfold Kernel.queued
  rw [parkQueueless_deadlineArm]
  refine h3.land hD q.place ?_ ?_ (onQueue_count _ _) (onQueue_ready _ _)
    (onQueue_sleepq _ _) ?_ ?_ ?_ ?_ ?_ ?_ ?_ ?_
  · exact (congrArg WaitEdge.place (field_onThr Thread.edge rfl c)).trans (by rw [he2, hpl])
  · simp [Kernel.onThr, setThr, Place.queue_place]
  iterate 5 exact fun u => by rw [onQueue_thr]
  · intro pl' hne
    rw [listOf_onQueue, if_neg hne]
  · intro u
    rw [listOf_onQueue, if_pos rfl]
    simp [or_comm]
  · rw [listOf_onQueue, if_pos rfl, List.nodup_append]
    refine ⟨h3.links.nodup _, by simp, fun a ha b hb e => ?_⟩
    rw [List.mem_singleton] at hb
    exact h3.flying_unlisted (t := c) (by simp) (hb ▸ e ▸ ha)

theorem Placed.armBlock {q : Queue} {edge : WaitEdge} {d : Option Nat} (h : Placed s D) (hc : s.Runnable c)
    (hpl : edge.place = some q.place) : Placed ((s.deadlineArm c d).wqBlock c q edge) D :=
  (h.queued hc hpl).pickAndSeat

theorem peekFrom_mem (best : Tid) (l : List Tid) : s.peekFrom best l = best ∨ s.peekFrom best l ∈ l := by
  induction l generalizing best with
  | nil => exact .inl rfl
  | cons t rest ih =>
    unfold peekFrom
    split_ifs
    · rcases ih t with h | h
      · exact .inr (by simp [h])
      · exact .inr (by simp [h])
    · rcases ih best with h | h
      · exact .inl h
      · exact .inr (by simp [h])

theorem wqPeekHighest_mem {l : List Tid} (h : s.wqPeekHighest l = some t) : t ∈ l := by
  cases l with
  | nil => cases h
  | cons u rest =>
    cases h
    rcases s.peekFrom_mem u rest with h | h
    · simp [h]
    · simp [h]

theorem wqPeekHighest_eq_none {l : List Tid} : s.wqPeekHighest l = none ↔ l = [] := by
  cases l <;> simp [wqPeekHighest]

theorem wqPeekHighest_congr (hp : ∀ u, (s'.thr u).prio = (s.thr u).prio) (l : List Tid) :
    s'.wqPeekHighest l = s.wqPeekHighest l := by
  cases l with
  | nil => rfl
  | cons a l =>
    simp only [wqPeekHighest, Option.some.injEq]
    induction l generalizing a with
    | nil => rfl
    | cons b l ih => simp only [peekFrom, hp, ih]

theorem Placed.erase {q : Queue} (h : Placed s D) (ht : t ∈ s.queueOf q) :
    Placed (s.onQueue q fun l => l.erase t) (t :: D) := by
  rw [queueOf_eq] at ht
  refine h.detach _ ht (onQueue_count _ _) (onQueue_ready _ _) (onQueue_sleepq _ _) ?_ ?_ ?_ ?_ ?_ (listOf_onQueue q _)
  iterate 5 exact fun u => by rw [onQueue_thr]

/-- What a pop does: nothing to an empty queue, else the first of the highest priority leaves it, its edge
cleared. -/
theorem wqPopHighest_cases (q : Queue) :
    s.wqPopHighest q = (s, none) ∧ s.queueOf q = [] ∨
    ∃ t, s.wqPeekHighest (s.queueOf q) = some t ∧ t ∈ s.queueOf q ∧
      s.wqPopHighest q = ((s.onQueue q fun l => l.erase t).clearWaitEdge t, some t) := by
  unfold wqPopHighest
  cases hp : s.wqPeekHighest (s.queueOf q) with
  | none => exact .inl ⟨rfl, wqPeekHighest_eq_none.mp hp⟩
  | some t => exact .inr ⟨t, rfl, wqPeekHighest_mem hp, rfl⟩

theorem Placed.popped {q : Queue} (h : Placed s D) (ht : t ∈ s.queueOf q) :
    Placed ((s.onQueue q fun l => l.erase t).clearWaitEdge t) (t :: D) := (h.erase ht).clearWaitEdge (by simp)

theorem Placed.listed_not_flying {q : Queue} (h : Placed s D) (ht : t ∈ s.queueOf q) : t ∉ D := by
  rw [queueOf_eq] at ht
  exact (h.links.listed _ t ht).2

theorem Placed.replyDonorUnpark {server : Tid} (h : Placed s D) (hc : c ∈ (s.thr server).replyWaiters) :
    Placed (s.replyDonorUnpark server c).1 (c :: D) ∧ (s.replyDonorUnpark server c).2 = true ∧
      ((s.replyDonorUnpark server c).1.thr c).edge = .none ∧ ((s.replyDonorUnpark server c).1.thr c).queue = none := by
  simp only [Kernel.replyDonorUnpark, hc, ↓reduceIte, clearWaitEdge_edge, clearWaitEdge_queue, and_self, and_true]
  refine Placed.clearWaitEdge (h.detach (t := c) (.reply server) hc rfl rfl rfl ?_ ?_ ?_ ?_ ?_ ?_) (by simp)
  iterate 5 exact field_onThr _ rfl
  intro pl'
  split_ifs with hpl
  · subst hpl; simp [listOf, Kernel.onThr, setThr]
  · cases pl' with
    | reply r =>
      have hr : r ≠ server := fun e => hpl (by rw [e])
      simp [listOf, Kernel.onThr, setThr, hr]
    | _ => rfl

theorem Placed.rqRotate (h : Placed s D) (hc : s.Runnable c) : Placed (s.rqRotate c) D := by
  unfold Kernel.rqRotate
  dsimp only
  split_ifs
  · exact h
  · have hc' : c ∈ s.ready (s.thr c).prio := (h.ready.mem c _).mpr ⟨hc, rfl⟩
    have hself : c ∉ (s.ready (s.thr c).prio).erase c := (h.ready.nodup _).not_mem_erase
    have hmem : ∀ u q, u ∈ update s.ready (s.thr c).prio ((s.ready (s.thr c).prio).erase c ++ [c]) q ↔
        u ∈ s.ready q := fun u q => by
      by_cases hq : q = (s.thr c).prio
      · subst hq
        have hn := (h.ready.nodup (s.thr c).prio).mem_erase_iff (a := u) (b := c)
        by_cases hu : u = c <;> simp_all
      · simp [hq]
    refine ⟨⟨fun u q => (hmem u q).trans (h.ready.mem u q), fun q => ?_, h.ready.bound⟩, h.timed.same rfl (fun _ => rfl)
      fun _ => id, h.links.same rfl (fun _ => Iff.rfl) (fun _ => rfl) (fun _ => rfl) fun pl => by cases pl <;> rfl⟩
    by_cases hq : q = (s.thr c).prio
    · subst hq
      simp only [update_self, List.nodup_append, List.nodup_singleton, List.mem_singleton, true_and]
      refine ⟨(h.ready.nodup _).erase c, fun a ha b hb e => ?_⟩
      rw [e, hb] at ha
      exact hself ha
    · simpa [update_apply, hq] using h.ready.nodup q

theorem Placed.ended (h : Placed s D) (hc : s.Runnable c) :
    Placed ((s.onThr c fun x => { x with state := .exited }).rqRemove c) D := by
  have hx : ∀ u, u ≠ c → ((s.onThr c fun x => { x with state := .exited }).rqRemove c).thr u = s.thr u := fun u hu => by
    simp [rqRemove, Kernel.onThr, setThr, hu]
  have hg : ∀ {α : Type} (g : Thread → α), (∀ y, g { y with state := .exited } = g y) → ∀ u,
      g (((s.onThr c fun x => { x with state := .exited }).rqRemove c).thr u) = g (s.thr u) := fun g hg u =>
    field_onThr (s := s) (t := c) (f := fun y => { y with state := .exited }) g (hg _) u
  have hb : ∀ u, (((s.onThr c fun x => { x with state := .exited }).rqRemove c).thr u).state = .blocked ↔
      (s.thr u).state = .blocked := fun u => by
    by_cases hu : u = c
    · subst hu; simp [rqRemove, Kernel.onThr, setThr, hc.ne_blocked]
    · rw [hx u hu]
  refine ⟨h.ready.leave hc (by simp), h.timed.same rfl (hg Thread.onTimer fun _ => rfl) (fun u hu => (hb u).mpr hu),
    h.links.same rfl hb (hg Thread.edge fun _ => rfl) (hg Thread.queue fun _ => rfl) fun pl => ?_⟩
  cases pl with
  | reply r => exact hg Thread.replyWaiters (fun _ => rfl) r
  | _ => rfl

/-! ### What a pass may change -/

/-- A thread that is parked or runnable. -/
def Alive (s : Kernel) (t : Tid) : Prop := (s.thr t).state = .blocked ∨ s.Runnable t

/-- A wake or a pass: it parks nobody, ends nobody and moves no priority, and only a runnable thread is claimed by a
slay on the way. -/
structure Calm (s s' : Kernel) : Prop where
  core : s'.core = s.core
  prio : ∀ t, (s'.thr t).prio = (s.thr t).prio
  alive : ∀ t, s'.Alive t ↔ s.Alive t
  run : ∀ t, s.Runnable t → s'.Runnable t
  dying : ∀ t, (s.thr t).dying = true → (s'.thr t).dying = true
  claimed : ∀ t, (s'.thr t).dying = true → (s.thr t).dying = true ∨ s'.Runnable t

theorem Calm.refl (s : Kernel) : Calm s s :=
  ⟨rfl, fun _ => rfl, fun _ => Iff.rfl, fun _ => id, fun _ => id, fun _ => .inl⟩

theorem Calm.trans {s₁ s₂ s₃ : Kernel} (h₁ : Calm s₁ s₂) (h₂ : Calm s₂ s₃) : Calm s₁ s₃ where
  core := h₂.core.trans h₁.core
  prio t := (h₂.prio t).trans (h₁.prio t)
  alive t := (h₂.alive t).trans (h₁.alive t)
  run t h := h₂.run t (h₁.run t h)
  dying t h := h₂.dying t (h₁.dying t h)
  claimed t h := by
    rcases h₂.claimed t h with h | h
    · exact (h₁.claimed t h).imp_right (h₂.run t)
    · exact .inr h

theorem Calm.of_core (hc : s'.core = s.core) (hs : ∀ t, (s'.thr t).state = (s.thr t).state)
    (hp : ∀ t, (s'.thr t).prio = (s.thr t).prio) (hd : ∀ t, (s'.thr t).dying = (s.thr t).dying) : Calm s s' where
  core := hc
  prio := hp
  alive t := by simp only [Alive, Runnable, hs]
  run t h := by simpa only [Runnable, hs] using h
  dying t h := (hd t).trans h
  claimed t h := .inl ((hd t).symm.trans h)

theorem Calm.sleepqRemove : Calm s (s.sleepqRemove t) := by
  unfold Kernel.sleepqRemove
  split_ifs
  · have hx : ∀ {α : Type} (g : Thread → α), (∀ x, g { x with onTimer := false } = g x) → ∀ u,
        g ((s.onThr t fun x => { x with onTimer := false }).thr u) = g (s.thr u) := fun g hg => field_onThr g (hg _)
    exact .of_core (core_onThr (f := fun x => { x with onTimer := false }) rfl) (hx Thread.state fun _ => rfl)
      (hx Thread.prio fun _ => rfl) (hx Thread.dying fun _ => rfl)
  · exact .refl s

theorem Calm.deadlineCancel : Calm s (s.deadlineCancel t) := by
  unfold Kernel.deadlineCancel
  split_ifs
  · exact .sleepqRemove
  · exact .refl s

theorem Calm.setState {x : ThreadState} (ha : s.Alive t) (hx : x = .ready ∨ x = .running) :
    Calm s (s.onThr t fun y => { y with state := x }) where
  core := core_onThr rfl
  prio := field_onThr Thread.prio rfl
  alive u := by
    by_cases hu : u = t
    · subst hu
      rcases hx with rfl | rfl <;> simp [Alive, Runnable, Kernel.onThr, setThr] <;> exact ha
    · simp [Alive, Runnable, Kernel.onThr, setThr, hu]
  run u h := by
    by_cases hu : u = t
    · subst hu
      rcases hx with rfl | rfl <;> simp [Runnable, Kernel.onThr, setThr]
    · simpa [Runnable, Kernel.onThr, setThr, hu] using h
  dying u h := (field_onThr Thread.dying rfl u).trans h
  claimed u h := .inl ((field_onThr Thread.dying rfl u).symm.trans h)

theorem Calm.of_thr (hc : s'.core = s.core) (ht : s'.thr = s.thr) : Calm s s' :=
  .of_core hc (fun t => by rw [ht]) (fun t => by rw [ht]) (fun t => by rw [ht])

theorem Calm.makeReady (ha : s.Alive t) : Calm s (s.makeReady t) :=
  (Calm.setState ha (.inl rfl)).trans (.of_thr rfl rfl)

theorem Calm.leaveRunning : Calm s s.leaveRunning := by
  unfold Kernel.leaveRunning
  split
  · exact .refl s
  · split_ifs with hr
    · exact .setState (.inr (.inr hr)) (.inl rfl)
    · exact .refl s

theorem Calm.switchBook {next : Option Tid} (hn : ∀ t, next = some t → s.Runnable t) : Calm s (s.switchBook next) := by
  have h0 : Calm s { s.leaveRunning with current := next } := Calm.leaveRunning.trans (.of_thr rfl rfl)
  cases next with
  | none => exact h0
  | some t =>
    have hr : ({ s.leaveRunning with current := some t } : Kernel).Runnable t := h0.run t (hn t rfl)
    have h1 := h0.trans (Calm.setState (.inr hr) (.inr rfl))
    unfold Kernel.switchBook
    dsimp only
    refine (h1.trans ?_).trans (.of_core (core_onThr rfl) (field_onThr Thread.state rfl) (field_onThr Thread.prio rfl)
      (field_onThr Thread.dying rfl))
    split_ifs
    · refine ⟨core_onThr rfl, field_onThr Thread.prio rfl, fun u => ?_, fun u h => ?_, fun u h => ?_, fun u h => ?_⟩
      · simp only [Alive, Runnable, field_onThr (f := fun x => { x with dying := true }) (t := t) Thread.state rfl u]
      · simpa only [Runnable, field_onThr (f := fun x => { x with dying := true }) (t := t) Thread.state rfl u] using h
      · by_cases hu : u = t <;> simp_all [onThr, setThr]
      · by_cases hu : u = t
        · subst hu; simp [Runnable, onThr, setThr]
        · exact .inl (by simpa [onThr, setThr, hu] using h)
    · exact .refl _

theorem Placed.calm_pickAndSeat (h : Placed s D) : Calm s s.pickAndSeat := by
  unfold Kernel.pickAndSeat
  dsimp only
  split_ifs
  · exact .refl s
  · refine .switchBook fun t ht => ?_
    obtain ⟨p, hp⟩ := policyPickNext_mem ht
    exact ((h.ready.mem t p).mp hp).1

theorem Placed.calm_reschedAfterWake (h : Placed s D) : Calm s (s.reschedAfterWake t) := by
  unfold Kernel.reschedAfterWake
  split
  · exact h.calm_pickAndSeat
  · split_ifs
    · exact .refl s
    · exact h.calm_pickAndSeat

theorem Calm.wakeNoResched : Calm s (s.wakeNoResched t).1 := by
  have h := Calm.deadlineCancel (s := s) (t := t)
  unfold Kernel.wakeNoResched
  dsimp only
  split_ifs with hb
  · exact h
  · exact h.trans (.makeReady (.inl (not_not.mp hb)))

theorem Placed.calm_wake (h : Placed s (t :: D)) (hD : t ∉ D) (he : (s.thr t).edge = .none)
    (hq : (s.thr t).queue = none) : Calm s (s.wake t) := by
  obtain ⟨h1, h2⟩ := h.wakeNoResched hD he hq
  simp only [Kernel.wake, h2, ↓reduceIte]
  exact Calm.wakeNoResched.trans h1.calm_reschedAfterWake

end Kernel
end KickOS
