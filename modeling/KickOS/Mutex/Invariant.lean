import KickOS.Mutex.Protocol
import KickOS.Kernel.Abort

/-! The invariant of a run of the mutex protocol.

Records, words and chains are read of the core alone (`Tidy`), so the scheduler keeps them. On top of that every
thread that is not dying has exactly the priority its waiters give it. -/

namespace KickOS
namespace Mutex
open Kernel Lib.Chain Lib.Donation
open Function (update update_of_ne update_self)

variable {s s' : Kernel} {D : List Tid} {t c w o u x : Tid} {m : Rid} {key : Key} {hole : Option Rid}

/-- Only mutexes are waited for, every record with a waiter is announced in its word, and no chain of holders
closes. -/
structure Tidy (s : Kernel) (hole : Option Rid) : Prop where
  recorded : Recorded s hole
  kinds : ∀ m, (s.wrec m).kind ≠ .plain
  edges : ∀ t, (s.thr t).edge = .none ∨ ∃ m, (s.thr t).edge = .mutex m
  quiet : ∀ t, (s.thr t).replyWaiters = [] ∧ (s.thr t).served = []
  ids : ∀ t < s.count, (s.thr t).lockId % 2 ^ lockIdSlotBits = t + 1
  words : ∀ m ∈ s.wordActive, ∀ o, (s.wrec m).owner = some o →
    s.words (s.wrec m).key = { value := (s.thr o).lockId, waiters := true }
  acyclic : Acyclic s.holder

theorem Tidy.of_core (h : Tidy s hole) (hc : s'.core = s.core) : Tidy s' hole where
  recorded := h.recorded.of_core hc
  kinds m := by rw [core_read (fun k => (k.wrec m).kind) hc fun _ => rfl]; exact h.kinds m
  edges t := by rw [edge_core hc]; exact h.edges t
  quiet t := by
    rw [core_read (fun k => (k.thr t).replyWaiters) hc fun _ => rfl, core_read (fun k => (k.thr t).served) hc fun _ => rfl]
    exact h.quiet t
  ids t ht := by
    rw [core_read (fun k => (k.thr t).lockId) hc fun _ => rfl]
    exact h.ids t (by rwa [core_read Kernel.count hc fun _ => rfl] at ht)
  words m hm o ho := by
    rw [core_read Kernel.wordActive hc fun _ => rfl] at hm
    rw [core_read (fun k => (k.wrec m).owner) hc fun _ => rfl] at ho
    rw [core_read (fun k => k.words (k.wrec m).key) hc fun _ => rfl, core_read (fun k => (k.thr o).lockId) hc fun _ => rfl]
    exact h.words m hm o ho
  acyclic := by rw [holder_core hc]; exact h.acyclic

/-- Every thread that lives has its effective priority. -/
def Exact (s : Kernel) : Prop := ∀ t, (s.thr t).dying = false → (s.thr t).prio = s.effectivePrio t

structure Inv (s : Kernel) : Prop where
  placed : Placed s []
  tidy : Tidy s none
  /-- Death comes to a thread that runs. -/
  dying : ∀ t, (s.thr t).dying = true → (s.thr t).state ≠ .blocked
  exact : Exact s

/-! ### Donors and holders -/

theorem Tidy.donor_iff (h : Tidy s hole) (hp : Placed s D) : s.Donor x u ↔ s.holder x = some u ∧ x ∉ D := by
  constructor
  · rintro (⟨m, hm, hx⟩ | ⟨hx, -⟩ | ⟨e, he, -⟩)
    · obtain ⟨hk, ho⟩ := (h.recorded.held u m).mp hm
      rw [holder_of_edge (h.recorded.edge_pi m hk x hx)]
      exact ⟨ho, (hp.links.listed (.record m) x hx).2⟩
    · rw [(h.quiet u).1] at hx; cases hx
    · rw [(h.quiet u).2] at he; cases he
  · rintro ⟨hh, hD⟩
    obtain ⟨m, he, ho⟩ := holder_some hh
    have hb : (s.thr x).state = .blocked := by
      by_contra hb
      rw [(hp.links.at_rest x hb).1] at he
      cases he
    have hx : x ∈ (s.wrec m).waiters := (hp.links.parked x hb hD).mem (.record m) (by rw [he]; rfl)
    rcases h.recorded.waiter_edge hx with ⟨hk, -⟩ | ⟨hk, -⟩
    · exact .inl ⟨m, (h.recorded.held u m).mpr ⟨hk, ho⟩, hx⟩
    · exact absurd hk (h.kinds m)

/-- The chains of the threads that are where they should be. -/
def next (s : Kernel) (D : List Tid) (x : Tid) : Option Tid := if x ∈ D then none else s.holder x

theorem Tidy.effectivePrio_le (h : Tidy s hole) (hp : Placed s D) (pr : Tid → Nat) {n : Nat} :
    (s.withPrio pr).effectivePrio u ≤ n ↔ Owed (fun t => (s.thr t).basePrio) (next s D) pr u n := by
  rw [effectivePrio_le_iff, donor_core withPrio_core]
  refine and_congr_right fun _ => forall_congr' fun x => imp_congr_left ?_
  rw [h.donor_iff hp, next]
  split_ifs with hx <;> simp [hx]

theorem Tidy.exact_iff (h : Tidy s hole) (hp : Placed s D) : (s.thr u).prio = s.effectivePrio u ↔
    Settled (fun t => (s.thr t).basePrio) (next s D) (fun t => (s.thr t).prio) u := by
  have hle := fun n => h.effectivePrio_le hp (fun t => (s.thr t).prio) (u := u) (n := n)
  constructor
  · intro he n
    rw [← hle]
    exact iff_of_eq (congrArg (· ≤ n) he)
  · intro hs
    exact Nat.le_antisymm ((hs _).mpr ((hle _).mp le_rfl)) ((hle _).mpr ((hs _).mp le_rfl))

theorem next_nil : next s [] = s.holder := by
  funext x
  simp [next]

/-! ### The scheduler -/

theorem Exact.calm (h : Exact s) (hc : Calm s s') : Exact s' := fun t ht => by
  rw [hc.prio, effectivePrio_core hc.core hc.prio]
  refine h t ?_
  by_contra hd
  rw [hc.dying t (by simpa using hd)] at ht
  cases ht

theorem dying_calm (h : ∀ t, (s.thr t).dying = true → (s.thr t).state ≠ .blocked) (hc : Calm s s') :
    ∀ t, (s'.thr t).dying = true → (s'.thr t).state ≠ .blocked := by
  intro t hd hb
  have hal : s.Alive t := (hc.alive t).mp (.inl hb)
  rcases hc.claimed t hd with hd | hr
  · rcases hal with hb' | hr
    · exact h t hd hb'
    · exact (hc.run t hr).ne_blocked hb
  · exact hr.ne_blocked hb

theorem Inv.calm (h : Inv s) (hc : Calm s s') (hp : Placed s' []) : Inv s' where
  placed := hp
  tidy := h.tidy.of_core hc.core
  dying := dying_calm h.dying hc
  exact := h.exact.calm hc

theorem Inv.pickAndSeat (h : Inv s) : Inv s.pickAndSeat := h.calm h.placed.calm_pickAndSeat h.placed.pickAndSeat

/-! ### A park -/

theorem holder_eq_none (h : Placed s D) (hc : s.Runnable c) : s.holder c = none := by
  simp [holder, waitMutex, (h.links.at_rest c hc.ne_blocked).1]

theorem holder_armBlock {d : Option Nat} (hk : (s.wrec m).kind = .pi) :
    ((s.deadlineArm c d).wqBlock c (.record m) (.mutex m)).holder = update s.holder c (s.wrec m).owner := by
  have hrec : ∀ i, ((s.enlisted c m).wrec i).owner = (s.wrec i).owner := fun i => by
    by_cases hi : i = m
    · subst hi; simp [enlisted, onQueue, onRec, onThr, setThr]
    · simp [enlisted, onQueue, onRec, onThr, setThr, hi]
  have hcore : ((s.deadlineArm c d).wqBlock c (.record m) (.mutex m)).core = (s.enlisted c m).core := by
    rw [armBlock_core, enlisted, hk]; rfl
  rw [holder_core hcore]
  funext x
  by_cases hx : x = c
  · subst hx
    have he : ((s.enlisted x m).thr x).edge = .mutex m := by simp [enlisted, onQueue, onRec, onThr, setThr, hk, WordKind.edge]
    rw [holder_of_edge he, hrec, update_self]
  · have ht : (s.enlisted c m).thr x = s.thr x := by simp [enlisted, onQueue, onRec, onThr, setThr, hx]
    rw [update_of_ne hx]
    simp only [holder, waitMutex, ht, hrec]

theorem Tidy.block {d : Option Nat} (h : Tidy s hole) (hp : Placed s D) (hm : m ∈ s.wordActive)
    (hhole : hole = none ∨ hole = some m) (hk : (s.wrec m).kind = .pi) (ho : (s.wrec m).owner = some t)
    (hc : s.Runnable c) (hr : ¬ Reach s.holder t c) :
    Tidy ((s.deadlineArm c d).wqBlock c (.record m) (.mutex m)) none := by
  have hcore : ((s.deadlineArm c d).wqBlock c (.record m) (.mutex m)).core = (s.enlisted c m).core := by
    rw [armBlock_core, enlisted, hk]; rfl
  have hrec : ∀ i, ((s.enlisted c m).wrec i).owner = (s.wrec i).owner ∧ ((s.enlisted c m).wrec i).kind = (s.wrec i).kind ∧
      ((s.enlisted c m).wrec i).key = (s.wrec i).key := fun i => by
    by_cases hi : i = m
    · subst hi; simp [enlisted, onQueue, onRec, onThr, setThr]
    · simp [enlisted, onQueue, onRec, onThr, setThr, hi]
  have hother : ∀ x, x ≠ c → (s.enlisted c m).thr x = s.thr x := fun x hx => by
    simp [enlisted, onQueue, onRec, onThr, setThr, hx]
  have hself : (s.enlisted c m).thr c = { s.thr c with queue := some (.record m), edge := .mutex m } := by
    simp [enlisted, onQueue, onRec, onThr, setThr, hk, WordKind.edge]
  have hid : ∀ x, ((s.enlisted c m).thr x).lockId = (s.thr x).lockId := fun x => by
    by_cases hx : x = c
    · rw [hx, hself]
    · rw [hother x hx]
  have hrecd := h.recorded.block (c := c) (d := d) hm hhole fun i => hp.links.not_listed (.record i) hc.ne_blocked
  rw [hk] at hrecd
  have hacyc := holder_armBlock (s := s) (c := c) (d := d) hk
  refine Tidy.of_core (s := s.enlisted c m) ⟨hrecd.of_core hcore.symm, fun i => ?_, fun x => ?_, fun x => ?_, fun x hx => ?_,
    fun i hi o hio => ?_, ?_⟩ hcore
  · rw [(hrec i).2.1]; exact h.kinds i
  · by_cases hx : x = c
    · exact .inr ⟨m, by rw [hx, hself]⟩
    · rw [hother x hx]; exact h.edges x
  · by_cases hx : x = c
    · rw [hx, hself]; exact h.quiet c
    · rw [hother x hx]; exact h.quiet x
  · rw [hid]; exact h.ids x hx
  · rw [(hrec i).1] at hio
    rw [(hrec i).2.2, hid]
    exact h.words i hi o hio
  · rw [← holder_core hcore, hacyc, ho]
    exact h.acyclic.add hr

theorem Inv.park {d : Option Nat} (hp : Placed s []) (ht : Tidy s hole)
    (hdy : ∀ t, (s.thr t).dying = true → (s.thr t).state ≠ .blocked) (hex : Exact s) (hm : m ∈ s.wordActive)
    (hhole : hole = none ∨ hole = some m) (hk : (s.wrec m).kind = .pi) (ho : (s.wrec m).owner = some t)
    (hc : s.Runnable c) (hcd : (s.thr c).dying = false) (hr : ¬ Reach s.holder t c) :
    Inv (((raiseChain (s.thr c).prio (s.count + 1) s t).deadlineArm c d).wqBlock c (.record m) (.mutex m)) := by
  have hcore₂ := raiseChain_core (p := (s.thr c).prio) (s.count + 1) s t
  have hthr₂ := raiseChain_thr (p := (s.thr c).prio) (s.count + 1) s t
  have hp₂ := hp.raiseChain (p := (s.thr c).prio) (s.count + 1) s t
  generalize raiseChain (s.thr c).prio (s.count + 1) s t = s₂ at hcore₂ hthr₂ hp₂ ⊢
  have ht₂ := ht.of_core hcore₂
  have hc₂ : s₂.Runnable c := by rw [Runnable, hthr₂]; exact hc
  have hm₂ : m ∈ s₂.wordActive := by rwa [core_read Kernel.wordActive hcore₂ fun _ => rfl]
  have hk₂ : (s₂.wrec m).kind = .pi := by rwa [core_read (fun k => (k.wrec m).kind) hcore₂ fun _ => rfl]
  have ho₂ : (s₂.wrec m).owner = some t := by rwa [core_read (fun k => (k.wrec m).owner) hcore₂ fun _ => rfl]
  have hh₂ := holder_core hcore₂
  have hp₃ := hp₂.queued (q := .record m) (e := .mutex m) (d := d) hc₂ rfl
  have hcalm := hp₃.calm_pickAndSeat
  have htidy := ht₂.block (d := d) hp₂ hm₂ hhole hk₂ ho₂ hc₂ (by rwa [hh₂])
  have hholder := holder_armBlock (s := s₂) (c := c) (d := d) hk₂
  rw [wqBlock_eq] at htidy hholder ⊢
  rw [ho₂, hh₂] at hholder
  have ht₃ : Tidy (s₂.queued c (.record m) (.mutex m) d) none := htidy.of_core hcalm.core.symm
  have hh₃ : (s₂.queued c (.record m) (.mutex m) d).holder = update s.holder c (some t) := by
    rw [← hholder, holder_core hcalm.core]
  have hdying : ∀ u, ((s₂.queued c (.record m) (.mutex m) d).thr u).dying = (s.thr u).dying := fun u => by
    rw [queued_dying, hthr₂]; rfl
  have hbase : ∀ u, ((s₂.queued c (.record m) (.mutex m) d).thr u).basePrio = (s.thr u).basePrio := fun u => by
    by_cases hu : u = c
    · rw [hu, queued_self, basePrio_core deadlineArm_core, hthr₂]; rfl
    · rw [queued_of_ne hu, hthr₂]; rfl
  have hprio : (fun u => ((s₂.queued c (.record m) (.mutex m) d).thr u).prio) =
      raise (update s.holder c (some t)) (s.thr c).prio (s.count + 1) (fun u => (s.thr u).prio) t := by
    -- the walk does not meet the caller, so it sees the same chain with the new link in place
    have hsame : ∀ a, Reach s.holder t a → update s.holder c (some t) a = s.holder a := fun a ha => by
      have hac : a ≠ c := fun e => hr (e ▸ ha)
      rw [update_of_ne hac]
    rw [raise_congr _ _ _ hsame]
    funext u
    rw [queued_prio, hthr₂]; rfl
  refine Inv.calm ⟨hp₃, ht₃, fun u hd => ?_, fun u hd => ?_⟩ hcalm hp₃.pickAndSeat
  · rw [hdying] at hd
    have huc : u ≠ c := by
      rintro rfl
      rw [hcd] at hd; cases hd
    rw [queued_of_ne huc, hthr₂]
    exact hdy u hd
  · rw [ht₃.exact_iff hp₃, next_nil, hh₃, hprio]
    simp only [hbase]
    have hcn := holder_eq_none hp hc
    have hac : Acyclic (update s.holder c (some t)) := ht.acyclic.add hr
    have hS : ∀ a b, update s.holder c (some t) a = some b → a ∈ Finset.range s.count := fun a b hab => by
      by_cases hac : a = c
      · rw [hac]; exact Finset.mem_range.mpr (hp.ready.bound c hc)
      · rw [update_of_ne hac] at hab
        exact hp.holder_mem hab
    have hsettled : ∀ u, (s.thr u).dying = false →
        Settled (fun t => (s.thr t).basePrio) s.holder (fun t => (s.thr t).prio) u := fun u hu => by
      rw [← next_nil]
      exact (ht.exact_iff hp).mp (hex u hu)
    have howed : ∀ u n, u ≠ t → (Owed (fun t => (s.thr t).basePrio) (update s.holder c (some t))
        (fun t => (s.thr t).prio) u n ↔ Owed (fun t => (s.thr t).basePrio) s.holder (fun t => (s.thr t).prio) u n) := by
      intro u n hu
      refine and_congr_right fun _ => forall_congr' fun a => imp_congr_left ?_
      by_cases hac : a = c
      · subst hac
        simp [hcn, Ne.symm hu]
      · rw [update_of_ne hac]
    refine raise_settled (A := fun u => (s.thr u).dying = false) hac hS _ _ _ (Nat.lt_succ_of_le
      ((rank_le _ _).trans (Finset.card_range _).le)) (fun u hu hut n => ?_) (fun htd n => ?_) u (by rwa [hdying] at hd)
    · rw [howed u n hut]
      exact hsettled u hu n
    · rw [max_le_iff, hsettled t htd n]
      constructor
      · rintro ⟨⟨hb, hx⟩, hpn⟩
        refine ⟨hb, fun a ha => ?_⟩
        by_cases hac : a = c
        · rw [hac]; exact hpn
        · rw [update_of_ne hac] at ha; exact hx a ha
      · rintro ⟨hb, hx⟩
        refine ⟨⟨hb, fun a ha => ?_⟩, hx c (by simp)⟩
        by_cases hac : a = c
        · rw [hac, hcn] at ha; cases ha
        · exact hx a (by rwa [update_of_ne hac])

/-! ### A lock attempt -/

theorem holder_taken (ht : Tidy s none) (hp : Placed s []) (hk : (s.wrec m).kind = .free) :
    (s.taken m key .pi (some t)).holder = s.holder := by
  funext x
  have hedge : ((s.taken m key .pi (some t)).thr x).edge = (s.thr x).edge := rfl
  rcases ht.edges x with he | ⟨i, he⟩
  · simp [holder, waitMutex, hedge, he]
  · have hb : (s.thr x).state = .blocked := by
      by_contra hb
      rw [(hp.links.at_rest x hb).1] at he
      cases he
    have hx : x ∈ (s.wrec i).waiters := (hp.links.parked x hb (by simp)).mem (.record i) (by rw [he]; rfl)
    have hi : i ≠ m := by
      rintro rfl
      rw [ht.recorded.idle i hk] at hx
      cases hx
    rw [holder_of_edge (m := i) (hedge.trans he), holder_of_edge he]
    simp [Kernel.taken, hi]

theorem Tidy.taken (h : Tidy s none) (hp : Placed s []) (hm : m < s.count) (hk : (s.wrec m).kind = .free)
    (hkey : s.recordFind key = none) (hw : s.words key = { value := (s.thr t).lockId, waiters := true }) :
    Tidy (s.taken m key .pi (some t)) (some m) := by
  have hx : ∀ i, i ≠ m → (s.taken m key .pi (some t)).wrec i = s.wrec i := fun i hi => by simp [Kernel.taken, hi]
  have hself : (s.taken m key .pi (some t)).wrec m = { key, kind := .pi, owner := some t, waiters := [] } := by
    simp [Kernel.taken]
  refine ⟨h.recorded.taken hm hk hkey (by simp) (by simp), fun i => ?_, h.edges, h.quiet, h.ids, fun i hi o ho => ?_, ?_⟩
  · by_cases hi : i = m
    · rw [hi, hself]; simp
    · rw [hx i hi]; exact h.kinds i
  · by_cases him : i = m
    · rw [him, hself] at ho ⊢
      cases ho
      exact hw
    · rw [hx i him] at ho ⊢
      exact h.words i ((List.mem_cons.mp hi).resolve_left him) o ho
  · rw [holder_taken h hp hk]; exact h.acyclic

theorem Inv.setWord (h : Inv s) (hkey : s.recordFind key = none) (v : Word) : Inv (s.setWord key v) where
  placed := h.placed.of_eq rfl rfl rfl rfl rfl rfl
  tidy :=
    { recorded := h.tidy.recorded.same rfl rfl rfl (fun _ => rfl) fun _ _ _ => rfl
      kinds := h.tidy.kinds
      edges := h.tidy.edges
      quiet := h.tidy.quiet
      ids := h.tidy.ids
      words := fun m hm o ho => by
        have hne := recordFind_none hkey m hm
        have hwd := h.tidy.words m hm o ho
        simpa [Kernel.setWord, hne] using hwd
      acyclic := h.tidy.acyclic }
  dying := h.dying
  exact u hu := by
    have he : (s.setWord key v).effectivePrio u = s.effectivePrio u :=
      effectivePrio_congr rfl (fun _ => Iff.rfl) fun _ _ => rfl
    rw [he]; exact h.exact u hu

/-- A thread parks behind a holder that does not wait for it, on the word's record or on a new one. -/
theorem Inv.lockPark {d : Option Nat} {r : Option Rid} (h : Inv s) (hc : s.Runnable c) (hcd : (s.thr c).dying = false)
    (hr : ¬ Reach s.holder t c) (hrec : s.recordFind key = r)
    (hsome : ∀ m, r = some m → (s.wrec m).kind = .pi ∧ (s.wrec m).owner = some t)
    (hw : s.words key = { value := (s.thr t).lockId, waiters := true }) : Inv (s.lockPark c key r t d) := by
  cases r with
  | some m =>
    obtain ⟨hk, ho⟩ := hsome m rfl
    exact Inv.park h.placed h.tidy h.dying h.exact (recordFind_some hrec).1 (.inl rfl) hk ho hc hcd hr
  | none =>
    obtain ⟨m, hm, hk, heq⟩ := recordTake_eq key .pi (some t)
      (h.tidy.recorded.exists_free h.placed hc)
    have hp : Placed (s.taken m key .pi (some t)) [] := h.placed.taken (h.tidy.recorded.idle m hk)
    have ht := h.tidy.taken h.placed hm hk hrec hw
    have hh : (s.taken m key .pi (some t)).holder = s.holder := holder_taken h.tidy h.placed hk
    have hex : Exact (s.taken m key .pi (some t)) := fun u hu => by
      rw [ht.exact_iff hp, next_nil, hh]
      have := (h.tidy.exact_iff h.placed).mp (h.exact u hu)
      rwa [next_nil] at this
    unfold Kernel.lockPark
    simp only [heq]
    exact Inv.park (s := s.taken m key .pi (some t)) hp ht h.dying hex (by simp [Kernel.taken]) (.inr rfl)
      (by simp [Kernel.taken]) (by simp [Kernel.taken]) hc hcd (by rwa [hh])

/-- The word an attempt loaded is still the word, where the record or the waiters bit keeps the users out. -/
structure Fresh (s : Kernel) (key : Key) (v : Word) : Prop where
  recorded : s.recordFind key ≠ none → s.words key = v
  waited : v.waiters = true → s.words key = v

theorem ownerResolve_some {id : Nat} {couldHold : Tid → Bool} (h : s.ownerResolve id couldHold = some t) :
    s.Alive t ∧ (s.thr t).dying = false ∧ (s.thr t).lockId = id := by
  unfold ownerResolve at h
  dsimp only at h
  split_ifs at h with h1 h2
  cases h
  push Not at h2
  obtain ⟨h3, h4, h5, h6, -⟩ := h2
  refine ⟨?_, by simpa using h5, h6⟩
  cases hst : (s.thr (id % 2 ^ lockIdSlotBits - 1)).state <;> simp_all [Alive, Runnable]

/-- The holder an attempt would park behind. -/
def target (s : Kernel) (c : Tid) (key : Key) (v : Word) (couldHold : Tid → Bool) : Option Tid :=
  match s.recordFind key with
  | some m => (s.wrec m).owner
  | none =>
    if v.value = (s.thr c).lockId then some c
    else if v.value = 0 then none
    else s.ownerResolve v.value couldHold

/-- What is left of `lock_attempt` in a state of the protocol: nobody holds the word, and the caller takes it; or a
thread does, and the caller is refused or parks behind it. -/
theorem Inv.lockAttempt_eq {v : Word} {couldHold : Tid → Bool} {passed : Bool} {d : Option Nat} (h : Inv s)
    (hf : Fresh s key v) :
    s.lockAttempt c (.ok key) couldHold v passed d =
      match target s c key v couldHold with
      | none =>
        if s.words key = v then
          (s.setWord key { value := (s.thr c).lockId }, .answered (if v.value = 0 then .ok 0 else .error .eownerdead))
        else (s, .retry)
      | some t =>
        if t = c then (s, .answered (.error .edeadlk))
        else if passed then (s, .answered (.error .etimedout))
        else if s.chainMeets c (s.count + 1) t then (s, .answered (.error .edeadlk))
        else if s.words key = v then
          ((s.setWord key { v with waiters := true }).lockPark c key (s.recordFind key) t d, .parked)
        else (s, .retry) := by
  unfold lockAttempt target
  dsimp only
  cases hr : s.recordFind key with
  | some m =>
    obtain ⟨hm, hkey⟩ := recordFind_some hr
    have hw := hf.recorded (by simp [hr])
    have hk : (s.wrec m).kind = .pi := by
      have h1 := (h.tidy.recorded.active m).mp hm
      have h2 := h.tidy.kinds m
      cases hkind : (s.wrec m).kind <;> simp_all
    cases ho : (s.wrec m).owner with
    | none => exact absurd ho (h.tidy.recorded.owned m hk)
    | some t =>
      have hv : v = { value := (s.thr t).lockId, waiters := true } := by
        rw [← hw, ← hkey]; exact h.tidy.words m hm t ho
      have hset : s.setWord key { v with waiters := true } = s := setWord_self (by rw [hw, hv])
      simp only [hk, ne_eq, not_true_eq_false, ↓reduceIte, hset, hw]
      have hval : v.value = (s.thr t).lockId := by rw [hv]
      have hwait : v.waiters = true := by rw [hv]
      simp only [ho, hval, hwait, not_true_eq_false, ↓reduceIte, Bool.true_eq_false, lockCommit, Option.isNone_some,
        Bool.false_eq_true, false_and]
  | none =>
    dsimp only
    by_cases hself : v.value = (s.thr c).lockId
    · simp [hself]
    · simp only [hself, ↓reduceIte]
      cases hres : (if v.value = 0 then none else s.ownerResolve v.value couldHold) with
      | none => rfl
      | some t =>
        have htc : t ≠ c := by
          rintro rfl
          split_ifs at hres
          obtain ⟨-, -, hid⟩ := ownerResolve_some hres
          exact hself hid.symm
        simp only [htc, ↓reduceIte, lockCommit, Option.isNone_none, true_and]
        by_cases hwait : v.waiters = true
        · have hw := hf.waited hwait
          have hset : s.setWord key { v with waiters := true } = s := setWord_self (by rw [hw, ← hwait])
          simp only [hwait, Bool.true_eq_false, ↓reduceIte, hset, hw]
        · simp only [Bool.not_eq_true] at hwait
          simp only [hwait, ↓reduceIte]

theorem Inv.active_pi (h : Inv s) (hm : m ∈ s.wordActive) :
    (s.wrec m).kind = .pi ∧ ∃ o, (s.wrec m).owner = some o := by
  have hk : (s.wrec m).kind = .pi := by
    have h1 := (h.tidy.recorded.active m).mp hm
    have h2 := h.tidy.kinds m
    cases hkind : (s.wrec m).kind <;> simp_all
  exact ⟨hk, Option.ne_none_iff_exists'.mp (h.tidy.recorded.owned m hk)⟩

theorem Inv.target_value {v : Word} {couldHold : Tid → Bool} (h : Inv s) (hf : Fresh s key v)
    (ht : target s c key v couldHold = some t) : v.value = (s.thr t).lockId := by
  unfold target at ht
  cases hr : s.recordFind key with
  | some m =>
    rw [hr] at ht
    obtain ⟨hm, hkey⟩ := recordFind_some hr
    have hwd := h.tidy.words m hm t ht
    rw [hkey, hf.recorded (by simp [hr])] at hwd
    rw [hwd]
  | none =>
    rw [hr] at ht
    dsimp only at ht
    split_ifs at ht with h1 h2
    · cases ht; exact h1
    · exact (ownerResolve_some ht).2.2.symm

theorem Inv.target_none {v : Word} {couldHold : Tid → Bool} (h : Inv s) (ht : target s c key v couldHold = none) :
    s.recordFind key = none := by
  unfold target at ht
  cases hr : s.recordFind key with
  | some m =>
    rw [hr] at ht
    obtain ⟨-, o, ho⟩ := h.active_pi (recordFind_some hr).1
    exact absurd ht (by simp [ho])
  | none => rfl

theorem Inv.lockPark_target {v : Word} {couldHold : Tid → Bool} {d : Option Nat} (h : Inv s) (hf : Fresh s key v)
    (hc : s.Runnable c) (hcd : (s.thr c).dying = false) (ht : target s c key v couldHold = some t)
    (hm : s.chainMeets c (s.count + 1) t = false) (hw : s.words key = v) :
    Inv ((s.setWord key { v with waiters := true }).lockPark c key (s.recordFind key) t d) := by
  have hv := h.target_value hf ht
  have hr : ¬ Reach s.holder t c := fun hr => by
    rw [(h.placed.chainMeets_iff h.tidy.acyclic c _ t rank_lt_count).mpr hr] at hm
    cases hm
  have hword : (s.setWord key { v with waiters := true }).words key = { value := (s.thr t).lockId, waiters := true } := by
    simp [Kernel.setWord, hv]
  cases hrec : s.recordFind key with
  | none => exact (h.setWord hrec _).lockPark hc hcd hr hrec (by simp) hword
  | some m =>
    obtain ⟨hmem, hkey⟩ := recordFind_some hrec
    obtain ⟨hk, o, ho⟩ := h.active_pi hmem
    have hot : o = t := by
      simpa [target, hrec, ho] using ht
    have hwd := h.tidy.words m hmem o ho
    rw [hkey, hw] at hwd
    have hset : s.setWord key { v with waiters := true } = s := setWord_self (by rw [hw, hwd])
    rw [hset] at hword ⊢
    exact h.lockPark hc hcd hr hrec (fun i hi => by cases hi; exact ⟨hk, by rw [ho, hot]⟩) hword

theorem Inv.lockAttempt {v : Word} {couldHold : Tid → Bool} {passed : Bool} {d : Option Nat} (h : Inv s)
    (hf : Fresh s key v) (hc : s.Runnable c) (hcd : (s.thr c).dying = false) :
    Inv (s.lockAttempt c (.ok key) couldHold v passed d).1 := by
  rw [h.lockAttempt_eq hf]
  cases ht : target s c key v couldHold with
  | none =>
    by_cases hw : s.words key = v
    · simp only [hw, ↓reduceIte]
      exact h.setWord (h.target_none ht) _
    · simp only [hw, ↓reduceIte]
      exact h
  | some t =>
    dsimp only
    split_ifs with h1 h2 h3 h4
    · exact h
    · exact h
    · exact h
    · exact h.lockPark_target hf hc hcd ht (by simpa using h3) h4
    · exact h

/-! ### A handover -/

section Handover
variable {r : Answer}

theorem Inv.holder_handedOver (h : Inv s) (hm : m ∈ s.wordActive) : (s.handedOver c m w r).holder =
    fun x => if x = w then none else if x ∈ (s.wrec m).waiters then some w else s.holder x := by
  funext x
  by_cases hxw : x = w
  · subst hxw
    simp [holder, waitMutex, (handedOver_edge (s := s) (c := c) (m := m) (w := x) (r := r)).1]
  · simp only [hxw, ↓reduceIte]
    have hedge := handedOver_edge_of_ne (s := s) (c := c) (m := m) (r := r) hxw
    have hi : ∀ i, i ≠ m → (s.handedOver c m w r).wrec i = s.wrec i := fun i hi => by
      unfold handedOver
      split_ifs <;> simp [handed, freed, hi]
    split_ifs with hx
    · -- somebody is left, so the record is
      have hne : (s.wrec m).waiters.erase w ≠ [] := List.ne_nil_of_mem ((List.mem_erase_of_ne hxw).mpr hx)
      have he := h.tidy.recorded.edge_pi m (h.active_pi hm).1 x hx
      rw [holder_of_edge (hedge.trans he)]
      simp [handedOver, hne, handed]
    · rcases h.tidy.edges x with he | ⟨i, he⟩
      · simp [holder, waitMutex, hedge, he]
      · have him : i ≠ m := by
          rintro rfl
          have hb : (s.thr x).state = .blocked := by
            by_contra hb
            rw [(h.placed.links.at_rest x hb).1] at he
            cases he
          exact hx ((h.placed.links.parked x hb (by simp)).mem (.record i) (by rw [he]; rfl))
        rw [holder_of_edge (hedge.trans he), holder_of_edge he, hi i him]

theorem Inv.tidy_handedOver (h : Inv s) (hm : m ∈ s.wordActive) (ho : (s.wrec m).owner = some c)
    (hw : w ∈ (s.wrec m).waiters) (hcw : c ≠ w) : Tidy (s.handedOver c m w r) none := by
  obtain ⟨hk, -⟩ := h.active_pi hm
  have hid : ∀ u, ((s.handedOver c m w r).thr u).lockId = (s.thr u).lockId := handedOver_field Thread.lockId
    fun _ _ _ _ _ => rfl
  have hcount : (s.handedOver c m w r).count = s.count := by unfold handedOver; split_ifs <;> rfl
  have hi : ∀ i, i ≠ m → (s.handedOver c m w r).wrec i = s.wrec i := fun i hi => by
    unfold handedOver
    split_ifs <;> simp [handed, freed, hi]
  have hwords : (s.handedOver c m w r).words = update s.words (s.wrec m).key
      { value := (s.thr w).lockId, waiters := !((s.wrec m).waiters.erase w).isEmpty } := by
    unfold handedOver; split_ifs <;> rfl
  refine ⟨h.tidy.recorded.handedOver h.placed hk ho hw hcw, fun i => ?_, fun u => ?_, fun u => ?_, fun u hu => ?_,
    fun i hia o hio => ?_, ?_⟩
  · by_cases him : i = m
    · rw [him]
      unfold handedOver
      split_ifs
      · simp [freed]
      · simp [handed, hk]
    · rw [hi i him]; exact h.tidy.kinds i
  · by_cases huw : u = w
    · exact .inl (by rw [huw]; exact handedOver_edge.1)
    · rw [handedOver_edge_of_ne huw]; exact h.tidy.edges u
  · rw [handedOver_field Thread.replyWaiters fun _ _ _ _ _ => rfl, handedOver_field Thread.served fun _ _ _ _ _ => rfl]
    exact h.tidy.quiet u
  · rw [hid]; exact h.tidy.ids u (by rwa [hcount] at hu)
  · rw [hid, hwords]
    by_cases hne : (s.wrec m).waiters.erase w = []
    · simp only [handedOver, hne, ↓reduceIte] at hia hio ⊢
      have him : i ≠ m ∧ i ∈ s.wordActive := h.tidy.recorded.nodup.mem_erase_iff.mp hia
      have hii : ((s.handed c m w r).freed m).wrec i = s.wrec i := by simp [handed, freed, him.1]
      rw [hii] at hio ⊢
      have hkey : (s.wrec i).key ≠ (s.wrec m).key := fun e => him.1 (h.tidy.recorded.key_inj i him.2 m hm e)
      rw [update_of_ne hkey]
      exact h.tidy.words i him.2 o hio
    · simp only [handedOver, hne, ↓reduceIte] at hia hio ⊢
      by_cases him : i = m
      · subst him
        simp only [handed, update_self, Option.some.injEq] at hio ⊢
        subst hio
        simp [hne]
      · have hii : (s.handed c m w r).wrec i = s.wrec i := by simp [handed, him]
        rw [hii] at hio ⊢
        have hkey : (s.wrec i).key ≠ (s.wrec m).key := fun e => him (h.tidy.recorded.key_inj i hia m hm e)
        rw [update_of_ne hkey]
        exact h.tidy.words i hia o hio
  · rw [h.holder_handedOver hm]
    refine h.tidy.acyclic.of_sinks fun a b hab => ?_
    split_ifs at hab with h1 h2
    · cases hab
      exact .inr (by simp)
    · exact .inl hab

/-- The new holder has what it is owed already: it was the highest waiter. Only the one that lost the record may have
too much. -/
theorem Inv.exact_handedOver (h : Inv s) (hm : m ∈ s.wordActive) (ho : (s.wrec m).owner = some c)
    (hw : s.wqPeekHighest (s.wrec m).waiters = some w) (hcw : c ≠ w) (hu : u ≠ c) (hud : (s.thr u).dying = false) :
    ((s.handedOver c m w r).thr u).prio = (s.handedOver c m w r).effectivePrio u := by
  have hmem := wqPeekHighest_mem hw
  have ht := h.tidy_handedOver (r := r) hm ho hmem hcw
  have hp := h.placed.handedOver (r := r) hmem hcw
  have hh := h.holder_handedOver (c := c) (w := w) (r := r) hm
  have hprio : (fun u => ((s.handedOver c m w r).thr u).prio) = fun u => (s.thr u).prio := by
    funext u; exact handedOver_field Thread.prio (fun _ _ _ _ _ => rfl) u
  have hbase : (fun u => ((s.handedOver c m w r).thr u).basePrio) = fun u => (s.thr u).basePrio := by
    funext u; exact handedOver_field Thread.basePrio (fun _ _ _ _ _ => rfl) u
  have hnext : next (s.handedOver c m w r) [w] = (s.handedOver c m w r).holder := by
    funext x
    by_cases hx : x = w
    · simp [next, hx, hh]
    · simp [next, hx]
  have hold := (h.tidy.exact_iff h.placed).mp (h.exact u hud)
  rw [next_nil] at hold
  have hwaits : ∀ x ∈ (s.wrec m).waiters, s.holder x = some c := fun x hx => by
    rw [holder_of_edge (h.tidy.recorded.edge_pi m (h.active_pi hm).1 x hx), ho]
  rw [ht.exact_iff hp, hprio, hbase, hnext, hh]
  intro n
  rw [hold n]
  refine and_congr_right fun _ => ?_
  by_cases huw : u = w
  · subst huw
    constructor
    · intro hle x hx
      dsimp only at hx
      split_ifs at hx with h1 h2
      · have hmax := (wqPeekHighest_le hw (n := (s.thr u).prio)).mp le_rfl x h2
        refine hmax.trans ((hold n).mpr ⟨?_, hle⟩)
        assumption
      · exact hle x hx
    · intro hle x hx
      refine hle x ?_
      have h1 : x ≠ u := fun e => by
        have := hwaits u hmem
        rw [e, this] at hx
        exact hu (Option.some.inj hx).symm
      have h2 : x ∉ (s.wrec m).waiters := fun hm' => by
        rw [hwaits x hm'] at hx
        exact hu (Option.some.inj hx).symm
      simp [h1, h2, hx]
  · refine forall_congr' fun x => imp_congr_left ?_
    by_cases h1 : x = w
    · subst h1
      have := hwaits x hmem
      simp [this, Ne.symm hu]
    · by_cases h2 : x ∈ (s.wrec m).waiters
      · simp [h1, h2, hwaits x h2, Ne.symm hu, Ne.symm huw]
      · simp [h1, h2]

theorem Exact.recompute (ht : Tidy s hole) (hp : Placed s D) (hc : s.holder c = none)
    (hex : ∀ u, u ≠ c → (s.thr u).dying = false → (s.thr u).prio = s.effectivePrio u) : Exact (s.recompute c) := by
  have hdon : ∀ x u, s.Donor x u → x ≠ c := fun x u hx e => by
    have := ((ht.donor_iff hp).mp hx).1
    rw [e, hc] at this
    cases this
  have heff : ∀ u, (s.recompute c).effectivePrio u = s.effectivePrio u := fun u => by
    refine effectivePrio_congr (basePrio_core recompute_core u) (fun x => by rw [donor_core recompute_core]) fun x hx => ?_
    simp [Kernel.recompute, setPrio_thr, hdon x u hx]
  intro u hu
  rw [heff]
  by_cases huc : u = c
  · subst huc; simp [Kernel.recompute, setPrio_thr]
  · have hthr : (s.recompute c).thr u = s.thr u := by simp [Kernel.recompute, setPrio_thr, huc]
    rw [hthr] at hu ⊢
    exact hex u huc hu

theorem Inv.wake (hp : Placed s [w]) (ht : Tidy s none) (hdy : ∀ t, (s.thr t).dying = true → t ≠ w → (s.thr t).state ≠ .blocked)
    (hwd : (s.thr w).dying = false) (hex : Exact s) (he : (s.thr w).edge = .none) (hq : (s.thr w).queue = none) :
    Inv (s.wake w) := by
  have hdy' : ∀ t, (s.thr t).dying = true → (s.thr t).state ≠ .blocked := fun t hd => by
    refine hdy t hd ?_
    rintro rfl
    rw [hwd] at hd; cases hd
  have hc := hp.calm_wake (by simp) he hq
  exact ⟨hp.wake (by simp) he hq, ht.of_core hc.core, dying_calm hdy' hc, hex.calm hc⟩

theorem handedOver_state : ((s.handedOver c m w r).thr u).state = (s.thr u).state :=
  handedOver_field Thread.state (fun _ _ _ _ _ => rfl) u

theorem handedOver_dying : ((s.handedOver c m w r).thr u).dying = (s.thr u).dying :=
  handedOver_field Thread.dying (fun _ _ _ _ _ => rfl) u

theorem Inv.waiter_alive (h : Inv s) (hw : w ∈ (s.wrec m).waiters) :
    (s.thr w).state = .blocked ∧ (s.thr w).dying = false := by
  have hb : (s.thr w).state = .blocked := by
    by_contra hb
    exact h.placed.links.not_listed (.record m) hb hw
  refine ⟨hb, ?_⟩
  by_contra hd
  exact h.dying w (by simpa using hd) hb

theorem Inv.unlockAttempt {v : Word} (h : Inv s) (hc : s.Runnable c) : Inv (s.unlockAttempt c (.ok key) v).1 := by
  unfold Kernel.unlockAttempt
  dsimp only
  cases hr : s.recordFind key with
  | none =>
    dsimp only
    split_ifs
    · exact h
    · exact h.setWord hr _
    · exact h
  | some m =>
    obtain ⟨hm, hkey⟩ := recordFind_some hr
    obtain ⟨hk, o, ho⟩ := h.active_pi hm
    dsimp only
    simp only [hk, ne_eq, not_true_eq_false, ↓reduceIte]
    split_ifs with hoc
    · cases hw : s.wqPeekHighest (s.wrec m).waiters with
      | none => exact absurd (wqPeekHighest_eq_none.mp hw) (h.tidy.recorded.waited m hm (by simp))
      | some w =>
        have hmem := wqPeekHighest_mem hw
        obtain ⟨hb, hwd⟩ := h.waiter_alive hmem
        have hcw : c ≠ w := fun e => hc.ne_blocked (e ▸ hb)
        dsimp only
        rw [handOver_eq hk hw hcw]
        have hp := h.placed.handedOver (r := .ok 0) hmem hcw
        have ht := h.tidy_handedOver (r := .ok 0) hm hoc hmem hcw
        have hcn : (s.handedOver c m w (.ok 0)).holder c = none := by
          refine holder_eq_none hp ?_
          simpa only [Runnable, handedOver_state] using hc
        have hex := Exact.recompute ht hp hcn fun u hu hud =>
          h.exact_handedOver hm hoc hw hcw hu (by rwa [handedOver_dying] at hud)
        obtain ⟨he, hq⟩ := handedOver_edge (s := s) (c := c) (m := m) (w := w) (r := .ok 0)
        have hthr : ∀ u, (((s.handedOver c m w (.ok 0)).recompute c).thr u).state = (s.thr u).state ∧
            (((s.handedOver c m w (.ok 0)).recompute c).thr u).dying = (s.thr u).dying := fun u => by
          rw [← handedOver_state (s := s) (c := c) (m := m) (w := w) (r := .ok 0),
            ← handedOver_dying (s := s) (c := c) (m := m) (w := w) (r := .ok 0)]
          exact ⟨setPrio_field Thread.state (fun _ _ => rfl) u, setPrio_field Thread.dying (fun _ _ => rfl) u⟩
        refine Inv.wake hp.recompute (ht.of_core recompute_core) (fun u hd _ => ?_) ?_ hex ?_ ?_
        · rw [(hthr u).2] at hd
          rw [(hthr u).1]; exact h.dying u hd
        · rw [(hthr w).2]; exact hwd
        · rw [edge_core recompute_core]; exact he
        · rw [queue_core recompute_core]; exact hq
    · exact h

/-! ### The exit of a holder -/

theorem Inv.ownerLeft (h : Inv s) (hc : s.Runnable c) (hd : (s.thr c).dying = true) (hm : m ∈ (s.thr c).heldList) :
    ∃ w, s.wqPeekHighest (s.wrec m).waiters = some w ∧ c ≠ w ∧
      (s.wrec m).kind = .pi ∧ Placed (s.handedOver c m w (.error .eownerdead)) [w] ∧
      Inv ((s.handedOver c m w (.error .eownerdead)).wake w) := by
  obtain ⟨hk, ho⟩ := (h.tidy.recorded.held c m).mp hm
  have hact : m ∈ s.wordActive := (h.tidy.recorded.active m).mpr (by simp [hk])
  obtain ⟨w, hw⟩ := Option.ne_none_iff_exists'.mp (mt wqPeekHighest_eq_none.mp (h.tidy.recorded.waited m hact (by simp)))
  have hmem := wqPeekHighest_mem hw
  obtain ⟨hb, hwd⟩ := h.waiter_alive hmem
  have hcw : c ≠ w := fun e => hc.ne_blocked (e ▸ hb)
  have hp := h.placed.handedOver (r := .error .eownerdead) hmem hcw
  refine ⟨w, hw, hcw, hk, hp, ?_⟩
  obtain ⟨he, hq⟩ := handedOver_edge (s := s) (c := c) (m := m) (w := w) (r := .error .eownerdead)
  refine Inv.wake hp (h.tidy_handedOver hact ho hmem hcw) (fun u hud _ => ?_) (handedOver_dying.trans hwd)
    (fun u hud => ?_) he hq
  · rw [handedOver_dying] at hud
    rw [handedOver_state]; exact h.dying u hud
  · rw [handedOver_dying] at hud
    have huc : u ≠ c := fun e => by rw [e, hd] at hud; cases hud
    exact h.exact_handedOver hact ho hw hcw huc hud

theorem Inv.mutexOwnerExit {P : Kernel → Prop}
    (hP : ∀ s m w, Inv s → s.Runnable c → (s.thr c).dying = true → m ∈ (s.thr c).heldList →
      s.wqPeekHighest (s.wrec m).waiters = some w → c ≠ w → P s → P ((s.handedOver c m w (.error .eownerdead)).wake w)) :
    ∀ (n : Nat) (s : Kernel), Inv s → s.Runnable c → (s.thr c).dying = true → (s.thr c).heldList.length ≤ n → P s →
      Inv (mutexOwnerExit c n s) ∧ (mutexOwnerExit c n s).Runnable c ∧ ((mutexOwnerExit c n s).thr c).dying = true ∧
      ((mutexOwnerExit c n s).thr c).heldList = [] ∧ P (mutexOwnerExit c n s) := by
  intro n
  induction n with
  | zero =>
    intro s h hc hd hl hs
    exact ⟨h, hc, hd, List.length_eq_zero_iff.mp (Nat.le_zero.mp hl), hs⟩
  | succ n ih =>
    intro s h hc hd hl hs
    cases hheld : (s.thr c).heldList with
    | nil =>
      rw [Kernel.mutexOwnerExit, hheld]
      exact ⟨h, hc, hd, hheld, hs⟩
    | cons m rest =>
      have hm : m ∈ (s.thr c).heldList := by simp [hheld]
      obtain ⟨w, hw, hcw, hk, hp, hinv⟩ := h.ownerLeft hc hd hm
      obtain ⟨he, hq⟩ := handedOver_edge (s := s) (c := c) (m := m) (w := w) (r := .error .eownerdead)
      have hcalm := hp.calm_wake (by simp) he hq
      rw [mutexOwnerExit_cons hheld hk hw hcw]
      refine ih _ hinv (hcalm.run c ?_) (hcalm.dying c (handedOver_dying.trans hd)) ?_ (hP s m w h hc hd hm hw hcw hs)
      · simpa only [Runnable, handedOver_state] using hc
      · rw [core_read (fun k => (k.thr c).heldList) hcalm.core fun _ => rfl, handedOver_heldList hcw, hheld,
          List.erase_cons_head]
        rw [hheld] at hl
        exact Nat.le_of_succ_le_succ hl

theorem Inv.mark (h : Inv s) (hc : s.Runnable c) : Inv (s.onThr c fun y => { y with dying := true }) where
  placed := h.placed.onThr rfl
  tidy := h.tidy.of_core (core_onThr rfl)
  dying t hd := by
    rw [field_onThr Thread.state rfl]
    by_cases ht : t = c
    · rw [ht]; exact hc.ne_blocked
    · exact h.dying t (by simpa [onThr, setThr, ht] using hd)
  exact t hd := by
    have ht : t ≠ c := by
      rintro rfl
      simp [onThr, setThr] at hd
    rw [field_onThr Thread.prio rfl, effectivePrio_core (core_onThr rfl) (field_onThr Thread.prio rfl)]
    exact h.exact t (by simpa [onThr, setThr, ht] using hd)

end Handover

/-! ### A waiter leaves -/

section Abort
variable {r : Answer}

theorem next_single : next s [t] = update s.holder t none := by
  funext x
  by_cases hx : x = t
  · simp [next, hx]
  · simp [next, hx]

theorem Tidy.clear (h : Tidy s none) (hp : Placed s [t]) :
    Tidy ((s.clearWaitEdge t).onThr t fun x => { x with waitResult := r }) none := by
  have hx : ∀ u, u ≠ t → ((s.clearWaitEdge t).onThr t fun x => { x with waitResult := r }).thr u = s.thr u :=
    fun u hu => by simp [Kernel.clearWaitEdge, onThr, setThr, hu]
  have hg : ∀ {α : Type} (g : Thread → α), (∀ y, g { y with queue := none, edge := .none, waitResult := r } = g y) →
      ∀ u, g (((s.clearWaitEdge t).onThr t fun x => { x with waitResult := r }).thr u) = g (s.thr u) := by
    intro α g hg u
    by_cases hu : u = t
    · subst hu; simpa [Kernel.clearWaitEdge, onThr, setThr] using hg (s.thr u)
    · rw [hx u hu]
  have hedge : (((s.clearWaitEdge t).onThr t fun x => { x with waitResult := r }).thr t).edge = .none := by
    simp [Kernel.clearWaitEdge, onThr, setThr]
  refine ⟨h.recorded.same rfl rfl rfl (hg Thread.heldList fun _ => rfl) fun m u hu => ?_, h.kinds, fun u => ?_, fun u => ?_,
    fun u hu => ?_, fun m hm o ho => ?_, ?_⟩
  · rw [hx u]
    rintro rfl
    exact (hp.links.listed (.record m) u hu).2 (by simp)
  · by_cases hu : u = t
    · exact .inl (hu ▸ hedge)
    · rw [hx u hu]; exact h.edges u
  · rw [hg Thread.replyWaiters fun _ => rfl, hg Thread.served fun _ => rfl]; exact h.quiet u
  · rw [hg Thread.lockId fun _ => rfl]; exact h.ids u hu
  · rw [hg Thread.lockId fun _ => rfl]; exact h.words m hm o ho
  · refine h.acyclic.of_sinks fun a b hab => .inl ?_
    by_cases ha : a = t
    · rw [ha, holder, waitMutex, hedge] at hab; cases hab
    · rw [holder, waitMutex, hx a ha] at hab
      exact hab

/-- The state with waiter `t` off the record `m`, and the record freed with its last waiter. -/
def left (s : Kernel) (t : Tid) (m : Rid) : Kernel := (s.onQueue (.record m) fun l => l.erase t).wordWaiterLeft m

theorem left_field {α : Type} (g : Thread → α) (hg : ∀ y l, g { y with heldList := l } = g y) (u : Tid) :
    g ((left s t m).thr u) = g (s.thr u) := by
  rw [left, wordWaiterLeft_eq]
  split_ifs
  · exact hg _ _
  · rfl

theorem left_rec {i : Rid} (hi : i ≠ m) : (left s t m).wrec i = s.wrec i := by
  rw [left, wordWaiterLeft_eq]
  split_ifs <;> simp [freed, onQueue, onRec, hi]

theorem left_stays (hx : x ∈ (s.wrec m).waiters) (hxt : x ≠ t) :
    (left s t m).wrec m = { s.wrec m with waiters := (s.wrec m).waiters.erase t } := by
  have hne : (s.wrec m).waiters.erase t ≠ [] := List.ne_nil_of_mem ((List.mem_erase_of_ne hxt).mpr hx)
  rw [left, wordWaiterLeft_eq]
  simp [onQueue, onRec, hne]

theorem left_words : (left s t m).words = s.words := by
  rw [left, wordWaiterLeft_eq]
  split_ifs <;> rfl

theorem left_count : (left s t m).count = s.count := by
  rw [left, wordWaiterLeft_eq]
  split_ifs <;> rfl

theorem left_owner : ((left s t m).wrec m).owner = none ∨ ((left s t m).wrec m).owner = (s.wrec m).owner := by
  rw [left, wordWaiterLeft_eq]
  split_ifs
  · exact .inl (by simp [freed])
  · exact .inr (by simp [onQueue, onRec])

theorem Tidy.left_active (h : Tidy s none) {i : Rid} (hi : i ∈ (left s t m).wordActive) : i ∈ s.wordActive ∧
    ((left s t m).wrec i).owner = (s.wrec i).owner ∧ ((left s t m).wrec i).key = (s.wrec i).key := by
  by_cases him : i = m
  · subst him
    rw [left, wordWaiterLeft_eq] at hi ⊢
    split_ifs at hi ⊢
    · exact absurd rfl (h.recorded.nodup.mem_erase_iff.mp hi).1
    · exact ⟨hi, by simp [onQueue, onRec], by simp [onQueue, onRec]⟩
  · rw [left_rec him]
    refine ⟨?_, rfl, rfl⟩
    rw [left, wordWaiterLeft_eq] at hi
    split_ifs at hi
    · exact List.mem_of_mem_erase hi
    · exact hi

theorem Tidy.holder_left (h : Tidy s none) (hp : Placed s []) (hxt : x ≠ t) : (left s t m).holder x = s.holder x := by
  have hedge := left_field (s := s) (t := t) (m := m) Thread.edge (fun _ _ => rfl) x
  rcases h.edges x with he | ⟨i, he⟩
  · simp [holder, waitMutex, hedge, he]
  · rw [holder_of_edge (hedge.trans he), holder_of_edge he]
    by_cases him : i = m
    · subst him
      have hb : (s.thr x).state = .blocked := by
        by_contra hb
        rw [(hp.links.at_rest x hb).1] at he
        cases he
      rw [left_stays ((hp.links.parked x hb (by simp)).mem (.record i) (by rw [he]; rfl)) hxt]
    · rw [left_rec him]

theorem Tidy.left (h : Tidy s none) (hp : Placed s []) : Tidy (left s t m) none := by
  refine ⟨(h.recorded.unlink (.inl rfl)).waiterLeft, fun i => ?_, fun u => ?_, fun u => ?_, fun u hu => ?_,
    fun i hi o ho => ?_, ?_⟩
  · by_cases him : i = m
    · subst him
      rw [Mutex.left, wordWaiterLeft_eq]
      split_ifs
      · simp [freed]
      · simpa [onQueue, onRec] using h.kinds i
    · rw [left_rec him]; exact h.kinds i
  · rw [left_field Thread.edge fun _ _ => rfl]; exact h.edges u
  · rw [left_field Thread.replyWaiters fun _ _ => rfl, left_field Thread.served fun _ _ => rfl]; exact h.quiet u
  · rw [left_field Thread.lockId fun _ _ => rfl]; exact h.ids u (by rwa [left_count] at hu)
  · obtain ⟨h1, h2, h3⟩ := h.left_active hi
    rw [left_words, h3, left_field Thread.lockId fun _ _ => rfl]
    exact h.words i h1 o (h2 ▸ ho)
  · refine h.acyclic.of_sinks fun a b hab => .inl ?_
    by_cases hat : a = t
    · subst hat
      rcases h.edges a with he | ⟨i, he⟩
      · rw [holder, waitMutex, left_field Thread.edge (fun _ _ => rfl), he] at hab; cases hab
      · rw [holder_of_edge ((left_field Thread.edge (fun _ _ => rfl) a).trans he)] at hab
        rw [holder_of_edge he]
        by_cases him : i = m
        · subst him
          rcases left_owner (s := s) (t := a) (m := i) with ho | ho
          · rw [ho] at hab; cases hab
          · rwa [ho] at hab
        · rwa [left_rec him] at hab
    · rwa [h.holder_left hp hat] at hab

theorem Inv.unwind_eq (h : Inv s) (hb : (s.thr t).state = .blocked) : ∃ m o, (s.thr t).edge = .mutex m ∧
    t ∈ (s.wrec m).waiters ∧ (s.wrec m).owner = some o ∧ s.unwind t = lowerChain (s.count + 1) (left s t m) o := by
  have hpk := h.placed.links.parked t hb (by simp)
  obtain ⟨m, he⟩ := (h.tidy.edges t).resolve_left hpk.edge
  have hmem : t ∈ (s.wrec m).waiters := hpk.mem (.record m) (by rw [he]; rfl)
  have hk : (s.wrec m).kind = .pi := by
    rcases h.tidy.recorded.waiter_edge hmem with ⟨hk, -⟩ | ⟨hk, -⟩
    · exact hk
    · exact absurd hk (h.tidy.kinds m)
  obtain ⟨o, ho⟩ := Option.ne_none_iff_exists'.mp (h.tidy.recorded.owned m hk)
  obtain ⟨heq, -⟩ := h.placed.unlinkQueue (q := .record m) hb (by simp) (by rw [he]; rfl)
  refine ⟨m, o, he, hmem, ho, ?_⟩
  unfold Kernel.unwind
  simp only [he, heq]
  have ho' : ((s.onQueue (.record m) fun l => l.erase t).wrec m).owner = some o := by simp [onQueue, onRec, ho]
  have hcount : ((s.onQueue (.record m) fun l => l.erase t).wordWaiterLeft m).count = s.count := left_count
  rw [ho', hcount]
  rfl

theorem Inv.lowered (h : Inv s) (he : (s.thr t).edge = .mutex m) (hmem : t ∈ (s.wrec m).waiters)
    (ho : (s.wrec m).owner = some o) (hu : (s.thr u).dying = false) :
    Settled (fun u => (s.thr u).basePrio) (update s.holder t none)
      (fun u => ((lowerChain (s.count + 1) (left s t m) o).thr u).prio) u := by
  have ht := h.tidy.left (t := t) (m := m) h.placed
  have hp : Placed (left s t m) [t] := (h.placed.erase (q := .record m) hmem).wordWaiterLeft
  have hto : s.holder t = some o := (holder_of_edge he).trans ho
  have hbase : (fun u => ((left s t m).thr u).basePrio) = fun u => (s.thr u).basePrio := by
    funext u; exact left_field Thread.basePrio (fun _ _ => rfl) u
  have hprio : (fun u => ((left s t m).thr u).prio) = fun u => (s.thr u).prio := by
    funext u; exact left_field Thread.prio (fun _ _ => rfl) u
  have hnext : next (left s t m) [t] = update s.holder t none := by
    rw [next_single]
    funext x
    by_cases hx : x = t
    · simp [hx]
    · simp [hx, h.tidy.holder_left h.placed hx]
  have hsub : ∀ a b, update s.holder t none a = some b → s.holder a = some b := fun a b hab => by
    by_cases ha : a = t
    · rw [ha, update_self] at hab; cases hab
    · rwa [update_of_ne ha] at hab
  have hac : Acyclic (update s.holder t none) := h.tidy.acyclic.of_sinks fun a b hab => .inl (hsub a b hab)
  have hS : ∀ a b, update s.holder t none a = some b → a ∈ Finset.range s.count := fun a b hab =>
    h.placed.holder_mem (hsub a b hab)
  -- the walk does not come back to the thread that left
  have hsame : ∀ a, Reach (update s.holder t none) o a →
      (left s t m).holder a = update s.holder t none a := fun a ha => by
    have hat : a ≠ t := by
      rintro rfl
      have hoa : Reach s.holder o a := Relation.ReflTransGen.mono hsub o a ha
      exact h.tidy.acyclic a (Relation.TransGen.head' hto hoa)
    rw [h.tidy.holder_left h.placed hat, update_of_ne hat]
  have hwalk : (fun u => ((lowerChain (s.count + 1) (left s t m) o).thr u).prio) =
      lower (fun pr => ((left s t m).withPrio pr).effectivePrio) (update s.holder t none) (s.count + 1)
        (fun u => (s.thr u).prio) o := by
    rw [← lower_congr _ _ _ hsame, lowerChain_thr, hprio]
    rfl
  rw [hwalk]
  refine lower_settled (A := fun u => (s.thr u).dying = false) (fun pr u n => ?_) hac hS _ _ _
    (Nat.lt_succ_of_le ((rank_le _ _).trans (Finset.card_range _).le)) (fun u hud huo n => ?_) u hu
  · rw [ht.effectivePrio_le hp, hbase, hnext]
  · have hold := (h.tidy.exact_iff h.placed).mp (h.exact u hud) n
    rw [next_nil] at hold
    rw [hold]
    refine and_congr_right fun _ => forall_congr' fun x => imp_congr_left ?_
    by_cases hx : x = t
    · subst hx
      simp [hto, Ne.symm huo]
    · rw [update_of_ne hx]

theorem Inv.unwound_field {α : Type} (h : Inv s) (hb : (s.thr t).state = .blocked) (g : Thread → α)
    (hg : ∀ y q e r l p, g { y with queue := q, edge := e, waitResult := r, heldList := l, prio := p } = g y) (u : Tid) :
    g ((s.unwound t r).thr u) = g (s.thr u) := by
  obtain ⟨m, o, -, -, -, hun⟩ := h.unwind_eq hb
  have hunwind : g ((s.unwind t).thr u) = g (s.thr u) := by
    rw [hun, lowerChain_thr, ← left_field (s := s) (t := t) (m := m) g (fun y l => hg y y.queue y.edge y.waitResult l y.prio) u]
    exact hg ((left s t m).thr u) ((left s t m).thr u).queue ((left s t m).thr u).edge ((left s t m).thr u).waitResult
      ((left s t m).thr u).heldList _
  rw [← hunwind]
  by_cases hu : u = t
  · subst hu
    simpa [Kernel.unwound, Kernel.clearWaitEdge, onThr, setThr] using
      hg ((s.unwind u).thr u) none .none r ((s.unwind u).thr u).heldList ((s.unwind u).thr u).prio
  · simp [Kernel.unwound, Kernel.clearWaitEdge, onThr, setThr, hu]

theorem Inv.unwound_edge (h : Inv s) (hb : (s.thr t).state = .blocked) (hu : u ≠ t) :
    ((s.unwound t r).thr u).edge = (s.thr u).edge := by
  obtain ⟨m, o, -, -, -, hun⟩ := h.unwind_eq hb
  have hthr : (s.unwound t r).thr u = (s.unwind t).thr u := by
    simp [Kernel.unwound, Kernel.clearWaitEdge, onThr, setThr, hu]
  rw [hthr, hun, edge_core (lowerChain_core _ _ _), left_field Thread.edge fun _ _ => rfl]

theorem Inv.threadAbortPark (h : Inv s) (hb : (s.thr t).state = .blocked) : Inv (s.threadAbortPark t r) := by
  obtain ⟨m, o, he, hmem, ho, hun⟩ := h.unwind_eq hb
  obtain ⟨hp, hedge, hqueue, -⟩ := h.placed.unwound (r := r) hb (by simp)
  have hcore : (s.unwind t).core = (left s t m).core := by rw [hun]; exact lowerChain_core _ _ _
  have ht : Tidy (s.unwound t r) none :=
    ((h.tidy.left h.placed).of_core hcore).clear (h.placed.unwind hb (by simp)).1
  have hdying := h.unwound_field (r := r) hb Thread.dying fun _ _ _ _ _ _ => rfl
  have hholder : next (s.unwound t r) [t] = update s.holder t none := by
    rw [next_single]
    funext x
    by_cases hx : x = t
    · simp [hx]
    · have hthr : (s.unwound t r).thr x = (s.unwind t).thr x := by
        simp [Kernel.unwound, Kernel.clearWaitEdge, onThr, setThr, hx]
      rw [update_of_ne hx, update_of_ne hx, ← h.tidy.holder_left (m := m) h.placed hx, ← holder_core hcore,
        holder, waitMutex, hthr]
      rfl
  rw [threadAbortPark_eq]
  refine Inv.wake hp ht (fun u hud _ => ?_) ?_ (fun u hud => ?_) hedge hqueue
  · rw [h.unwound_field hb Thread.state fun _ _ _ _ _ _ => rfl]
    exact h.dying u (by rwa [hdying] at hud)
  · rw [hdying]
    by_contra hd
    exact h.dying t (by simpa using hd) hb
  · rw [ht.exact_iff hp, hholder]
    have hl := h.lowered he hmem ho (u := u) (by rwa [hdying] at hud)
    rw [← hun] at hl
    have hbase : (fun u => ((s.unwound t r).thr u).basePrio) = fun u => (s.thr u).basePrio := by
      funext u
      exact h.unwound_field hb Thread.basePrio (fun _ _ _ _ _ _ => rfl) u
    have hprio : (fun u => ((s.unwound t r).thr u).prio) = fun u => ((s.unwind t).thr u).prio := by
      funext u
      by_cases hu : u = t
      · subst hu; simp [Kernel.unwound, Kernel.clearWaitEdge, onThr, setThr]
      · simp [Kernel.unwound, Kernel.clearWaitEdge, onThr, setThr, hu]
    rw [hbase, hprio]
    exact hl

end Abort

end Mutex
end KickOS
