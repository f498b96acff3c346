import KickOS.Smp.Machine
import Mathlib.Data.Fintype.BigOperators

/-! What holds of the ready lists and the rings while a thread is on the move.

`Almost k l r` is the invariant of the machine with up to two threads set aside: `l`, taken off its
list or out of its ring and not yet linked or staged again, and `r`, whose request has been taken out
of its ring and whose byte is not yet settled. With neither, it is the invariant proper. Each primitive
of the scheduler moves between these forms. -/

namespace KickOS
namespace Smp
open Function (update update_self)

variable {m n : Nat}

deriving instance Fintype for Entry

def Entry.toSum : Entry n → Fin n ⊕ Fin n
  | .hand i => .inl i
  | .reseat i => .inr i

theorem Entry.toSum_injective : Function.Injective (Entry.toSum (n := n)) := by
  intro e e' h
  cases e <;> cases e' <;> simp_all [Entry.toSum]

theorem card_entry : Fintype.card (Entry n) ≤ 2 * n := by
  have h := Fintype.card_le_of_injective _ (Entry.toSum_injective (n := n))
  rwa [Fintype.card_sum, Fintype.card_fin, ← two_mul] at h

/-! ### The depth of a ring -/

theorem ringDepthFrom_spec (entries : Nat) :
    ∀ depth, (∃ d, depth = 2 ^ d) → depth ≤ 2 ^ 16 → entries ≤ 2 ^ 16 →
      entries ≤ ringDepthFrom entries depth ∧ (∃ d, ringDepthFrom entries depth = 2 ^ d) ∧
        ringDepthFrom entries depth ≤ 2 ^ 16 := by
  intro depth
  induction depth using ringDepthFrom.induct entries with
  | case1 depth h ih =>
    rintro ⟨d, rfl⟩ hd he
    rw [ringDepthFrom, dif_pos h]
    have hd' : d < 16 := (Nat.pow_lt_pow_iff_right (by decide)).1 (lt_of_lt_of_le h.1 he)
    have hle : 2 ^ (d + 1) ≤ 2 ^ 16 := Nat.pow_le_pow_right (by decide) hd'
    exact ih ⟨d + 1, by rw [pow_succ]⟩ (by rwa [pow_succ] at hle) he
  | case2 depth h =>
    intro hp hd _
    obtain ⟨d, rfl⟩ := hp
    rw [ringDepthFrom, dif_neg h]
    have hpos : 0 < 2 ^ d := by positivity
    exact ⟨by omega, ⟨d, rfl⟩, hd⟩

theorem ringDepth_spec (hn : n ≤ 2 ^ 15) :
    2 * n ≤ ringDepth n ∧ (∃ d, ringDepth n = 2 ^ d) ∧ ringDepth n ≤ 2 ^ 16 :=
  ringDepthFrom_spec _ 1 ⟨0, rfl⟩ (by decide) (by omega)

theorem ringDepth_fits (hn : n ≤ 2 ^ 15) : Lib.Ring.Fits wordMod (ringDepth n) := by
  obtain ⟨-, ⟨d, hd⟩, hle⟩ := ringDepth_spec hn
  refine ⟨⟨d, hd⟩, ?_, lt_of_le_of_lt hle (by decide)⟩
  rw [hd] at hle ⊢
  exact Nat.pow_dvd_pow 2 (((Nat.pow_le_pow_iff_right (by decide)).1 hle).trans (by decide))

namespace Machine

/-! ### Fields that the invariants do not read -/

section Fields

variable (k : Machine m n) (t : Tid m n) (c me : Fin m) (bm : BitVec 32)

@[simp] theorem publishTop_thr : (k.publishTop c bm).thr = k.thr := by
  rw [publishTop]; split_ifs <;> rfl
@[simp] theorem publishTop_ready : (k.publishTop c bm).ready = k.ready := by
  rw [publishTop]; split_ifs <;> rfl
@[simp] theorem publishTop_ring : (k.publishTop c bm).ring = k.ring := by
  rw [publishTop]; split_ifs <;> rfl
@[simp] theorem publishTop_idle : (k.publishTop c bm).idle = k.idle := by
  rw [publishTop]; split_ifs <;> rfl
@[simp] theorem publishTop_current : (k.publishTop c bm).current = k.current := by
  rw [publishTop]; split_ifs <;> rfl

@[simp] theorem policyOnReady_thr : (k.policyOnReady t).thr = k.thr := by
  unfold policyOnReady; dsimp only; split_ifs <;> simp [setBitmap, setReady]
@[simp] theorem policyOnReady_ring : (k.policyOnReady t).ring = k.ring := by
  unfold policyOnReady; dsimp only; split_ifs <;> simp [setBitmap, setReady]
@[simp] theorem policyOnReady_idle : (k.policyOnReady t).idle = k.idle := by
  unfold policyOnReady; dsimp only; split_ifs <;> simp [setBitmap, setReady]
@[simp] theorem policyOnReady_current : (k.policyOnReady t).current = k.current := by
  unfold policyOnReady; dsimp only; split_ifs <;> simp [setBitmap, setReady]

@[simp] theorem policyOnRemove_thr : (k.policyOnRemove t).thr = k.thr := by
  unfold policyOnRemove; dsimp only; split_ifs <;> simp [setBitmap, setReady]
@[simp] theorem policyOnRemove_ring : (k.policyOnRemove t).ring = k.ring := by
  unfold policyOnRemove; dsimp only; split_ifs <;> simp [setBitmap, setReady]
@[simp] theorem policyOnRemove_idle : (k.policyOnRemove t).idle = k.idle := by
  unfold policyOnRemove; dsimp only; split_ifs <;> simp [setBitmap, setReady]
@[simp] theorem policyOnRemove_current : (k.policyOnRemove t).current = k.current := by
  unfold policyOnRemove; dsimp only; split_ifs <;> simp [setBitmap, setReady]

theorem policyOnReady_ready : (k.policyOnReady t).ready =
    update k.ready (k.thr t).queueCore (update (k.ready (k.thr t).queueCore)
      (k.thr t).rqPrio (k.ready (k.thr t).queueCore (k.thr t).rqPrio ++ [t])) := by
  unfold policyOnReady; dsimp only; split_ifs <;> simp [setBitmap, setReady]

theorem policyOnRemove_ready : (k.policyOnRemove t).ready =
    update k.ready (k.thr t).queueCore (update (k.ready (k.thr t).queueCore)
      (k.thr t).rqPrio ((k.ready (k.thr t).queueCore (k.thr t).rqPrio).erase t)) := by
  unfold policyOnRemove; dsimp only; split_ifs <;> simp [setBitmap, setReady]

variable (f : Tcb m → Tcb m)

@[simp] theorem setThr_self : (k.setThr t f).thr t = f (k.thr t) := by simp [setThr]
@[simp] theorem setThr_ready : (k.setThr t f).ready = k.ready := rfl
@[simp] theorem setThr_ring : (k.setThr t f).ring = k.ring := rfl
@[simp] theorem setThr_idle : (k.setThr t f).idle = k.idle := rfl
@[simp] theorem setThr_current : (k.setThr t f).current = k.current := rfl

variable {t}

theorem setThr_ne {x : Tid m n} (h : x ≠ t) : (k.setThr t f).thr x = k.thr x := by
  simp [setThr, h]

end Fields

/-! ### Membership of a ready list after a link and a removal -/

section Lists

variable {k : Machine m n} {t x : Tid m n} {c : Fin m} {p : Prio}

theorem mem_policyOnReady : x ∈ (k.policyOnReady t).ready c p ↔
    x ∈ k.ready c p ∨ (x = t ∧ (k.thr t).queueCore = c ∧ (k.thr t).rqPrio = p) := by
  rw [policyOnReady_ready]
  by_cases hc : c = (k.thr t).queueCore
  · subst hc
    by_cases hp : p = (k.thr t).rqPrio
    · subst hp
      simp
    · simp [hp, Ne.symm hp]
  · simp [hc, Ne.symm hc]

theorem mem_policyOnRemove (hnd : ∀ c p, (k.ready c p).Nodup) : x ∈ (k.policyOnRemove t).ready c p ↔
    x ∈ k.ready c p ∧ ¬(x = t ∧ (k.thr t).queueCore = c ∧ (k.thr t).rqPrio = p) := by
  rw [policyOnRemove_ready]
  by_cases hc : c = (k.thr t).queueCore
  · subst hc
    by_cases hp : p = (k.thr t).rqPrio
    · subst hp
      simp [(hnd _ _).mem_erase_iff, and_comm]
    · simp [hp, Ne.symm hp]
  · simp [hc, Ne.symm hc]

theorem nodup_policyOnReady (hnd : ∀ c p, (k.ready c p).Nodup) (ht : ∀ c p, t ∉ k.ready c p) :
    ((k.policyOnReady t).ready c p).Nodup := by
  rw [policyOnReady_ready]
  by_cases hc : c = (k.thr t).queueCore
  · subst hc
    by_cases hp : p = (k.thr t).rqPrio
    · subst hp
      simp only [update_self]
      refine List.nodup_append.2 ⟨hnd _ _, List.nodup_singleton t, ?_⟩
      rintro a ha b hb rfl
      rw [List.mem_singleton] at hb
      exact ht _ _ (hb ▸ ha)
    · simp [hp, hnd]
  · simp [hc, hnd]

theorem nodup_policyOnRemove (hnd : ∀ c p, (k.ready c p).Nodup) :
    ((k.policyOnRemove t).ready c p).Nodup := by
  rw [policyOnRemove_ready]
  by_cases hc : c = (k.thr t).queueCore
  · subst hc
    by_cases hp : p = (k.thr t).rqPrio
    · subst hp
      simpa using (hnd _ _).erase t
    · simp [hp, hnd]
  · simp [hc, hnd]

end Lists

/-! ### Entries in flight -/

/-- How often an entry is in flight, over all rings. -/
def flight (k : Machine m n) (e : Entry n) : Nat := ∑ p, ∑ c, (k.inFlight p c).count e

theorem sum_update_balance {ι : Type*} [Fintype ι] [DecidableEq ι] (f : ι → Nat) (i : ι) (v : Nat) :
    (∑ x, update f i v x) + f i = (∑ x, f x) + v := by
  rw [Finset.sum_update_of_mem (Finset.mem_univ i), ← Finset.add_sum_erase _ f (Finset.mem_univ i),
    Finset.sdiff_singleton_eq_erase]
  omega

theorem flight_of_update {k k' : Machine m n} {p c : Fin m} {l' : List (Entry n)}
    (h : k'.inFlight = update k.inFlight p (update (k.inFlight p) c l')) (e : Entry n) :
    k'.flight e + (k.inFlight p c).count e = k.flight e + l'.count e := by
  have hrow : ∀ q, (∑ d, (k'.inFlight q d).count e) =
      update (fun q => ∑ d, (k.inFlight q d).count e) p
        (∑ d, update (fun d => (k.inFlight p d).count e) c (l'.count e) d) q := by
    intro q
    rw [h]
    by_cases hq : q = p
    · subst hq
      simp only [update_self]
      refine Finset.sum_congr rfl fun d _ => ?_
      by_cases hd : d = c
      · subst hd
        simp
      · simp [hd]
    · simp [hq]
  have hin := sum_update_balance (fun d => (k.inFlight p d).count e) c (l'.count e)
  have hout := sum_update_balance (fun q => ∑ d, (k.inFlight q d).count e) p
    (∑ d, update (fun d => (k.inFlight p d).count e) c (l'.count e) d)
  have hk' : k'.flight e = ∑ q, update (fun q => ∑ d, (k.inFlight q d).count e) p
        (∑ d, update (fun d => (k.inFlight p d).count e) c (l'.count e) d) q :=
    Finset.sum_congr rfl fun q _ => hrow q
  have hk : k.flight e = ∑ q, ∑ d, (k.inFlight q d).count e := rfl
  omega

theorem count_le_flight (k : Machine m n) (p c : Fin m) (e : Entry n) :
    (k.inFlight p c).count e ≤ k.flight e :=
  (Finset.single_le_sum (f := fun d => (k.inFlight p d).count e) (fun _ _ => Nat.zero_le _)
    (Finset.mem_univ c)).trans
  (Finset.single_le_sum (f := fun q => ∑ d, (k.inFlight q d).count e) (fun _ _ => Nat.zero_le _)
    (Finset.mem_univ p))

theorem exists_of_flight {k : Machine m n} {e : Entry n} (h : k.flight e ≠ 0) :
    ∃ p c, e ∈ k.inFlight p c := by
  obtain ⟨p, -, hp⟩ := Finset.exists_ne_zero_of_sum_ne_zero h
  obtain ⟨c, -, hc⟩ := Finset.exists_ne_zero_of_sum_ne_zero hp
  exact ⟨p, c, List.count_pos_iff.1 (Nat.pos_of_ne_zero hc)⟩

theorem flight_pos {k : Machine m n} {e : Entry n} {p c : Fin m} (h : e ∈ k.inFlight p c) :
    0 < k.flight e :=
  lt_of_lt_of_le (List.count_pos_iff.2 h) (k.count_le_flight p c e)

end Machine
end Smp
end KickOS
