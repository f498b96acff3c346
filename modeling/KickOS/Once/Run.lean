import KickOS.Once.Model

/-! Every run of the calls: one function at a time runs, one completes, and nobody is left parked behind a settled word. -/

namespace KickOS
namespace Once
open Kernel Mutex
open Function (update update_apply)

variable {x y : Sys} {key : Key} {t u : Tid} {v w w' : Word} {p : Pc} {pc : Tid → Pc} {log : List Event} {e : Event}

/-! ### The word and the runner -/

/-- What a place in the call knows of the word. -/
def Ok (w : Word) : Pc → Prop
  | .loop v => v.value ≤ done ∧ (v.value = done → w.value = done)
  | .enter want => want = ⟨running, true⟩
  | .inline | .settle .inline | .swap .inline _ | .waking .inline | .settled .inline => False
  | .waking .returned | .settled .returned => w.value = done
  | _ => True

theorem Ok.mono (h : Ok w p) (hd : w.value = done → w'.value = done) : Ok w' p := by
  cases p with
  | loop v => exact ⟨h.1, fun hv => hd (h.2 hv)⟩
  | settle how => cases how <;> exact h
  | swap how v => cases how <;> exact h
  | waking how => cases how <;> first | exact hd h | exact h
  | settled how => cases how <;> first | exact hd h | exact h
  | _ => exact h

/-- The word is running while one call has it. -/
structure Turns (w : Word) (pc : Tid → Pc) : Prop where
  word : w.value ≤ done
  ok : ∀ t, Ok w (pc t)
  one : ∀ t u, (pc t).runs = true → (pc u).runs = true → t = u
  held : w.value = running ↔ ∃ t, (pc t).runs = true

theorem Turns.value_of_runs (h : Turns w pc) (hr : (pc t).runs = true) : w.value = running := h.held.2 ⟨t, hr⟩

theorem update_eq (pc : Tid → Pc) (t : Tid) (p : Pc) (u : Tid) : update pc t p u = if u = t then p else pc u :=
  update_apply ..

section Moves

variable (h : Turns w pc)

include h in
theorem Turns.keep (hp : p.runs = (pc t).runs) (hw : w'.value = w.value) (hok : Ok w' p) : Turns w' (update pc t p) := by
  have hruns : ∀ u, (update pc t p u).runs = (pc u).runs := by
    intro u
    rw [update_eq]
    split
    next hu => rw [hu, hp]
    · rfl
  refine ⟨hw ▸ h.word, fun u => ?_, fun u u' hu hu' => h.one u u' (hruns u ▸ hu) (hruns u' ▸ hu'), ?_⟩
  · rw [update_eq]
    split
    · exact hok
    · exact (h.ok u).mono fun hd => hw.trans hd
  · rw [hw, h.held]
    exact exists_congr fun u => by rw [hruns]

include h in
theorem Turns.take (hn : w.value ≠ running) (hd : w.value ≠ done) (hp : p.runs = true) (hw : w'.value = running) (hok : Ok w' p) :
    Turns w' (update pc t p) := by
  have hnone : ∀ u, (pc u).runs ≠ true := fun u hu => hn (h.value_of_runs hu)
  have hself : ∀ u, (update pc t p u).runs = true → u = t := by
    intro u hu
    rw [update_eq] at hu
    split at hu
    next heq => exact heq
    · exact absurd hu (hnone u)
  refine ⟨by rw [hw]; decide, fun u => ?_, fun u u' hu hu' => (hself u hu).trans (hself u' hu').symm, ?_⟩
  · rw [update_eq]
    split
    · exact hok
    · exact (h.ok u).mono fun h' => absurd h' hd
  · exact iff_of_true hw ⟨t, by rw [update_eq, if_pos rfl]; exact hp⟩

include h in
theorem Turns.give (hr : (pc t).runs = true) (hp : p.runs = false) (hw : w'.value ≤ done) (hne : w'.value ≠ running)
    (hok : Ok w' p) : Turns w' (update pc t p) := by
  have hval := h.value_of_runs hr
  have hnone : ∀ u, (update pc t p u).runs ≠ true := by
    intro u hu
    rw [update_eq] at hu
    split at hu
    · rw [hp] at hu
      cases hu
    next heq => exact heq (h.one u t hu hr)
  refine ⟨hw, fun u => ?_, fun u u' hu _ => absurd hu (hnone u), ?_⟩
  · rw [update_eq]
    split
    · exact hok
    · exact (h.ok u).mono fun h' => absurd (hval.symm.trans h') (by decide)
  · exact iff_of_false hne fun ⟨u, hu⟩ => hnone u hu

end Moves

/-! ### The events -/

/-- The function has returned and the call has not settled the word. -/
def Pc.finishing : Pc → Bool
  | .settle .returned | .swap .returned _ => true
  | _ => false

theorem Pc.runs_of_finishing (h : p.finishing = true) : p.runs = true := by
  cases p with
  | settle how => cases how <;> first | rfl | cases h
  | swap how v => cases how <;> first | rfl | cases h
  | _ => cases h

def Complete (w : Word) (pc : Tid → Pc) : Prop := w.value = done ∨ ∃ t, (pc t).finishing = true

structure Logged (w : Word) (pc : Tid → Pc) (log : List Event) : Prop where
  one : Complete w pc → log.countP Event.isCompleted = 1
  none : ¬ Complete w pc → log.countP Event.isCompleted = 0
  returned : ∀ t, .returned t ∈ log → w.value = done
  order : ∀ pre post t, log = post ++ .returned t :: pre → ∃ u, .completed u ∈ pre

theorem Logged.still (h : Logged w pc log) {pc' : Tid → Pc} (hc : Complete w' pc' ↔ Complete w pc)
    (hd : w.value = done → w'.value = done) : Logged w' pc' log :=
  ⟨fun h' => h.one (hc.1 h'), fun h' => h.none fun h'' => h' (hc.2 h''), fun t ht => hd (h.returned t ht), h.order⟩

theorem Logged.note (h : Logged w pc log) (he : e.isCompleted = false) (hr : ∀ t, e = .returned t → w.value = done) :
    Logged w pc (e :: log) := by
  have hcount : (e :: log).countP Event.isCompleted = log.countP Event.isCompleted := List.countP_cons_of_neg (by simp [he])
  refine ⟨fun h' => hcount.trans (h.one h'), fun h' => hcount.trans (h.none h'), fun t ht => ?_, fun pre post t heq => ?_⟩
  · rcases List.mem_cons.1 ht with rfl | ht
    · exact hr t rfl
    · exact h.returned t ht
  · cases post with
    | nil =>
      obtain ⟨rfl, rfl⟩ := List.cons.inj heq
      have hone := h.one (.inl (hr t rfl))
      obtain ⟨e', hmem, he'⟩ := List.countP_pos_iff.1 (by rw [hone]; exact Nat.one_pos : 0 < log.countP Event.isCompleted)
      cases e' with
      | completed u => exact ⟨u, hmem⟩
      | _ => cases he'
    | cons a post => exact h.order pre post t (List.cons.inj heq).2

theorem Logged.complete (h : Logged w pc log) {pc' : Tid → Pc} (hn : ¬ Complete w pc) (hc : Complete w' pc')
    (hd : w.value ≠ done) : Logged w' pc' (.completed t :: log) := by
  have hcount : (Event.completed t :: log).countP Event.isCompleted = 1 := by
    rw [List.countP_cons_of_pos rfl, h.none hn]
  refine ⟨fun _ => hcount, fun h' => absurd hc h', fun u hu => ?_, fun pre post u heq => ?_⟩
  · rcases List.mem_cons.1 hu with hu | hu
    · cases hu
    · exact absurd (h.returned u hu) hd
  · cases post with
    | nil => cases (List.cons.inj heq).1
    | cons a post => exact h.order pre post u (List.cons.inj heq).2

theorem complete_update (hp : p.finishing = (pc t).finishing) (hw : w'.value = done ↔ w.value = done) :
    Complete w' (update pc t p) ↔ Complete w pc := by
  refine or_congr hw (exists_congr fun u => ?_)
  rw [update_eq]
  split
  next hu => rw [hu, hp]
  · rfl

end Once
end KickOS
