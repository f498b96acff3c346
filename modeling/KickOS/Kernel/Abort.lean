import KickOS.Kernel.Donation

/-! The park unwind is total: whatever a parked thread waits for, `thread_abort_park` finds it on the list its edge
names, takes it off, and makes it ready, without a failed assertion. -/

namespace KickOS
namespace Kernel

variable {s s' : Kernel} {D : List Tid} {t c w o u : Tid} {m : Rid}

theorem assert_true : s.assert true = s := by simp [assert]

theorem Placed.unlinkQueue {q : Queue} (h : Placed s D) (hb : (s.thr t).state = .blocked) (hD : t ∉ D)
    (hpl : (s.thr t).edge.place = some q.place) :
    s.unlinkQueue t = (s.onQueue q fun l => l.erase t) ∧ t ∈ s.queueOf q := by
  obtain ⟨-, hm, hq⟩ := h.links.parked t hb hD
  have hmem : t ∈ s.queueOf q := by rw [queueOf_eq]; exact hm _ hpl
  rw [hpl, Option.bind_some, Place.queue_place] at hq
  refine ⟨?_, hmem⟩
  unfold Kernel.unlinkQueue
  rw [hq]
  simp only [hmem, decide_true, assert_true]

theorem faulted_core (h : s'.core = s.core) : s'.faulted = s.faulted := core_read Kernel.faulted h fun _ => rfl

@[simp] theorem onQueue_faulted (q : Queue) (f : List Tid → List Tid) : (s.onQueue q f).faulted = s.faulted := by
  cases q <;> rfl

@[simp] theorem wordWaiterLeft_faulted : (s.wordWaiterLeft m).faulted = s.faulted := by
  rw [wordWaiterLeft_eq]
  split_ifs <;> rfl

theorem Placed.unwind (h : Placed s D) (hb : (s.thr t).state = .blocked) (hD : t ∉ D) :
    Placed (s.unwind t) (t :: D) ∧ (s.unwind t).faulted = s.faulted := by
  have hp := h.links.parked t hb hD
  unfold Kernel.unwind
  split
  · -- a sender, or a caller not yet taken
    rename_i e he
    obtain ⟨heq, hmem⟩ := h.unlinkQueue (q := .send e) hb hD (by rw [he]; rfl)
    have h1 := (h.erase hmem).onThr (t := t) (f := fun x => { x with callState := .none }) rfl
    simp only [heq]
    split
    · exact ⟨h1, onQueue_faulted _ _⟩
    · split_ifs
      · exact ⟨h1.recompute, (faulted_core recompute_core).trans (onQueue_faulted _ _)⟩
      · exact ⟨h1, onQueue_faulted _ _⟩
  · rename_i e he
    obtain ⟨heq, hmem⟩ := h.unlinkQueue (q := .recv e) hb hD (by rw [he]; rfl)
    simp only [heq]
    exact ⟨(h.erase hmem).onThr rfl, onQueue_faulted _ _⟩
  · rename_i server he
    have hmem : t ∈ (s.thr server).replyWaiters := hp.mem (.reply server) (by rw [he]; rfl)
    obtain ⟨h1, h2, -, -⟩ := h.replyDonorUnpark hmem
    have hf : (s.replyDonorUnpark server t).1.faulted = s.faulted := by simp [Kernel.replyDonorUnpark, hmem]; rfl
    simp only [h2, assert_true]
    exact ⟨(h1.onThr rfl).recompute, (faulted_core recompute_core).trans hf⟩
  · rename_i m he
    obtain ⟨heq, hmem⟩ := h.unlinkQueue (q := .record m) hb hD (by rw [he]; rfl)
    have h1 := (h.erase hmem).wordWaiterLeft (m := m)
    simp only [heq]
    split
    · exact ⟨h1, by rw [wordWaiterLeft_faulted, onQueue_faulted]⟩
    · exact ⟨h1.lowerChain _ _ _, by rw [faulted_core (lowerChain_core _ _ _), wordWaiterLeft_faulted, onQueue_faulted]⟩
  · rename_i m he
    obtain ⟨heq, hmem⟩ := h.unlinkQueue (q := .record m) hb hD (by rw [he]; rfl)
    simp only [heq]
    exact ⟨(h.erase hmem).wordWaiterLeft, by rw [wordWaiterLeft_faulted, onQueue_faulted]⟩
  iterate 5
    rename_i he
    exact ⟨h.unsettle hb (by rw [he]; rfl), rfl⟩
  · rename_i he
    exact absurd he hp.edge

/-- The unwound thread in front of its wake. -/
def unwound (s : Kernel) (t : Tid) (r : Answer) : Kernel :=
  ((s.unwind t).clearWaitEdge t).onThr t fun x => { x with waitResult := r }

theorem threadAbortPark_eq {r : Answer} : s.threadAbortPark t r = (s.unwound t r).wake t := rfl

theorem Placed.unwound {r : Answer} (h : Placed s D) (hb : (s.thr t).state = .blocked) (hD : t ∉ D) :
    Placed (s.unwound t r) (t :: D) ∧ ((s.unwound t r).thr t).edge = .none ∧
      ((s.unwound t r).thr t).queue = none ∧ (s.unwound t r).faulted = s.faulted := by
  obtain ⟨h1, hf⟩ := h.unwind hb hD
  refine ⟨(h1.clearWaitEdge (by simp)).onThr rfl, ?_, ?_, hf⟩
  · exact (field_onThr Thread.edge rfl t).trans clearWaitEdge_edge
  · exact (field_onThr Thread.queue rfl t).trans clearWaitEdge_queue

end Kernel
end KickOS
