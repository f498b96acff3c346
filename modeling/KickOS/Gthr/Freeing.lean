import KickOS.Lib.Places
import KickOS.Gthr.Model

/-! Who may free a record, and when.

A record is in one place at most: with the one thread that holds it, on one of the two lists, or freed. Where it is about
to be freed, the thread it describes is past its last access, or is the thread that frees it. -/

namespace KickOS
namespace Gthr

open Lib

variable {gens : Nat} {s s' : St} {t T r d : Nat} {a : Act} {h : Handle}

inductive Place where
  | registry | detached | freed
  | held (t : Nat)
  deriving DecidableEq

def St.place (s : St) : Place → List Nat
  | .registry => s.registry
  | .detached => s.detached
  | .freed => s.freed
  | .held t => (s.pc t).held

/-- The thread does not touch its record again. -/
def Done (s : St) (T : Nat) : Prop := s.alive T = false ∨ s.pc T = .exit

/-- The thread has taken its own record to free it. -/
def Ending (p : Pc) : Prop := ∃ rs, p = .unlocking rs true ∨ p = .freeing rs true

def Filed (s : St) (r : Nat) : Prop := ∃ T, s.record T = some r ∧ (s.runs r).handle = some (s.self T)

/-- The records about to be freed by `t`: their threads are done, or are `t` itself. -/
def Doomed (s : St) (t : Nat) (rs : List Nat) (ends : Bool) : Prop :=
  ∀ r ∈ rs, ∀ T, s.record T = some r → Done s T ∨ (T = t ∧ ends = true)

def PcOk (s : St) (t : Nat) : Pc → Prop
  | .create r => (∀ T, s.record T ≠ some r) ∧ (s.runs r).state = .live
  | .started r h => ∃ T, s.record T = some r ∧ s.self T = h
  | .registering r h => s.lock = some t ∧ ∃ T, s.record T = some r ∧ s.self T = h
  | .claiming _ | .unlinking _ => s.lock = some t
  | .claimed r | .unlinked r | .swapped r => s.lock = some t ∧ Filed s r
  | .waiting r => Filed s r
  | .orphaned => ∃ r, s.record t = some r ∧ (s.runs r).state = .detached
  | .removing => s.lock = some t ∧ ∃ r, s.record t = some r ∧ (s.runs r).state = .detached
  | .unlocking rs ends => s.lock = some t ∧ Doomed s t rs ends
  | .freeing rs ends => Doomed s t rs ends
  | .user | .joining _ | .detaching _ | .returned | .exit => True

/-- What the state of a thread's record says. -/
structure RecOk (s : St) (T r : Nat) : Prop where
  returned : (s.runs r).state = .returned → Done s T
  detached : (s.runs r).state = .detached →
    Done s T ∨ Ending (s.pc T) ∨ r ∈ s.detached ∨ ∃ u, s.lock = some u ∧ s.pc u = .swapped r
  freed : r ∈ s.freed → Done s T ∨ Ending (s.pc T)

structure Inv (s : St) : Prop where
  apart : Apart s.place
  known : ∀ p r, r ∈ s.place p → r < s.nextRun
  unused : ∀ T, s.nextThread ≤ T → s.alive T = false ∧ s.record T = none ∧ s.pc T = .user
  bound : ∀ T r, s.record T = some r → r < s.nextRun
  one : ∀ T T' r, s.record T = some r → s.record T' = some r → T = T'
  filed : ∀ r, r ∈ s.registry ∨ r ∈ s.detached → Filed s r
  pcs : ∀ t, PcOk s t (s.pc t)
  recs : ∀ T r, s.record T = some r → RecOk s T r

theorem start_inv : Inv St.start where
  apart := ⟨fun p => by cases p <;> exact List.nodup_nil, fun p q r hr => by cases p <;> exact absurd hr List.not_mem_nil⟩
  known p r hr := by cases p <;> exact absurd hr List.not_mem_nil
  unused T hT := ⟨decide_eq_false (Nat.ne_of_gt hT), rfl, rfl⟩
  bound T r hr := by cases hr
  one T T' r hr := by cases hr
  filed r hr := by rcases hr with hr | hr <;> exact absurd hr List.not_mem_nil
  pcs t := trivial
  recs T r hr := by cases hr

theorem Inv.thread_lt (hi : Inv s) (hr : s.record T = some r) : T < s.nextThread := by
  by_contra hge
  have hnone := (hi.unused T (Nat.le_of_not_lt hge)).2.1
  rw [hr] at hnone
  cases hnone

theorem Inv.held_one (hi : Inv s) (hT : T ≠ t) (hr : r ∈ (s.pc T).held) : r ∉ (s.pc t).held := by
  intro hr'
  exact hT (Place.held.inj (hi.apart.apart (.held T) (.held t) r hr hr'))

/-! ### What a step of one thread keeps -/

/-- A step of thread `t` leaves the other threads and the records it does not hold where they are. -/
structure Kept (s s' : St) (t : Nat) : Prop where
  others : ∀ T, T ≠ t → s'.pc T = s.pc T
  done : ∀ T r, s.record T = some r → Done s T → Done s' T
  threads : ∀ T r, s.record T = some r → s'.record T = some r ∧ s'.self T = s.self T
  back : ∀ T r, s'.record T = some r → s.record T = some r ∨ r ∈ (s.pc t).held
  handle : ∀ r, r ∉ (s.pc t).held → r < s.nextRun → (s'.runs r).handle = (s.runs r).handle
  detached : ∀ r, r < s.nextRun → (s.runs r).state = .detached → (s'.runs r).state = .detached
  live : ∀ r, r < s.nextRun → r ∉ (s.pc t).held → s.record t ≠ some r → (s'.runs r).state = (s.runs r).state
  lock : ∀ T, T ≠ t → s.lock = some T → s'.lock = some T

theorem Kept.filed (hk : Kept s s' t) (hb : r < s.nextRun) (hr : r ∉ (s.pc t).held) (hf : Filed s r) : Filed s' r := by
  obtain ⟨T, hrec, hh⟩ := hf
  obtain ⟨hrec', hself⟩ := hk.threads T r hrec
  exact ⟨T, hrec', by rw [hk.handle r hr hb, hself, hh]⟩

theorem Kept.started (hk : Kept s s' t) (hf : ∃ T, s.record T = some r ∧ s.self T = h) :
    ∃ T, s'.record T = some r ∧ s'.self T = h := by
  obtain ⟨T, hrec, hh⟩ := hf
  obtain ⟨hrec', hself⟩ := hk.threads T r hrec
  exact ⟨T, hrec', hself.trans hh⟩

theorem Kept.doomed (hk : Kept s s' t) {rs : List Nat} {ends : Bool} (hrs : ∀ r ∈ rs, r ∉ (s.pc t).held)
    (hd : Doomed s T rs ends) : Doomed s' T rs ends := by
  intro r hr T' hrec
  rcases hk.back T' r hrec with hrec | hheld
  · exact (hd r hr T' hrec).imp_left (hk.done T' r hrec)
  · exact absurd hheld (hrs r hr)

theorem Kept.orphaned (hk : Kept s s' t) (hi : Inv s) (ho : ∃ r, s.record T = some r ∧ (s.runs r).state = .detached) :
    ∃ r, s'.record T = some r ∧ (s'.runs r).state = .detached := by
  obtain ⟨r, hrec, hst⟩ := ho
  exact ⟨r, (hk.threads T r hrec).1, hk.detached r (hi.bound T r hrec) hst⟩

theorem Kept.pcOk (hk : Kept s s' t) (hi : Inv s) (hT : T ≠ t) : PcOk s' T (s'.pc T) := by
  have hpc := hi.pcs T
  have hheld : ∀ r ∈ (s.pc T).held, r ∉ (s.pc t).held := fun r hr => hi.held_one hT hr
  have hlt : ∀ r ∈ (s.pc T).held, r < s.nextRun := fun r hr => hi.known (.held T) r hr
  rw [hk.others T hT]
  cases hp : s.pc T <;> rw [hp] at hpc hheld hlt
  case create r =>
    have hr := hheld r (List.mem_singleton_self r)
    have hnot : s.record t ≠ some r := hpc.1 t
    refine ⟨fun T' hrec => ?_, (hk.live r (hlt r (List.mem_singleton_self r)) hr hnot).trans hpc.2⟩
    rcases hk.back T' r hrec with hrec | hin
    · exact hpc.1 T' hrec
    · exact hr hin
  case started r h => exact hk.started hpc
  case registering r h => exact ⟨hk.lock T hT hpc.1, hk.started hpc.2⟩
  case claiming h => exact hk.lock T hT hpc
  case unlinking h => exact hk.lock T hT hpc
  case claimed r =>
    exact ⟨hk.lock T hT hpc.1,
      hk.filed (hlt r (List.mem_singleton_self r)) (hheld r (List.mem_singleton_self r)) hpc.2⟩
  case unlinked r =>
    exact ⟨hk.lock T hT hpc.1,
      hk.filed (hlt r (List.mem_singleton_self r)) (hheld r (List.mem_singleton_self r)) hpc.2⟩
  case swapped r =>
    exact ⟨hk.lock T hT hpc.1,
      hk.filed (hlt r (List.mem_singleton_self r)) (hheld r (List.mem_singleton_self r)) hpc.2⟩
  case waiting r =>
    exact hk.filed (hlt r (List.mem_singleton_self r)) (hheld r (List.mem_singleton_self r)) hpc
  case orphaned => exact hk.orphaned hi hpc
  case removing => exact ⟨hk.lock T hT hpc.1, hk.orphaned hi hpc.2⟩
  case unlocking rs ends => exact ⟨hk.lock T hT hpc.1, hk.doomed hheld hpc.2⟩
  case freeing rs ends => exact hk.doomed hheld hpc
  all_goals trivial

theorem RecOk.kept (hk : Kept s s' t) (hrec : s.record T = some r) (hok : RecOk s T r)
    (hstate : (s'.runs r).state = (s.runs r).state) (hdet : r ∈ s.detached → r ∈ s'.detached)
    (hfreed : r ∈ s'.freed → r ∈ s.freed) (hend : Ending (s.pc t) → Ending (s'.pc t) ∨ Done s' t)
    (hswap : s.pc t ≠ .swapped r) : RecOk s' T r := by
  have hending : Ending (s.pc T) → Done s' T ∨ Ending (s'.pc T) := by
    intro he
    by_cases hT : T = t
    · subst hT
      exact (hend he).symm
    · rw [hk.others T hT]
      exact Or.inr he
  refine ⟨fun hst => ?_, fun hst => ?_, fun hf => ?_⟩
  · exact hk.done T r hrec (hok.returned (hstate ▸ hst))
  · rcases hok.detached (hstate ▸ hst) with hd | he | hmem | ⟨u, hlock, hpc⟩
    · exact Or.inl (hk.done T r hrec hd)
    · rcases hending he with hd | he
      · exact Or.inl hd
      · exact Or.inr (Or.inl he)
    · exact Or.inr (Or.inr (Or.inl (hdet hmem)))
    · have hu : u ≠ t := fun heq => hswap (heq ▸ hpc)
      exact Or.inr (Or.inr (Or.inr ⟨u, hk.lock u hu hlock, by rw [hk.others u hu, hpc]⟩))
  · rcases hok.freed (hfreed hf) with hd | he
    · exact Or.inl (hk.done T r hrec hd)
    · exact hending he

end Gthr
end KickOS
