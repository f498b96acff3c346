import KickOS.Gthr.Steps

/-! The steps that move a record: on to a list, off it, and to be freed. -/

namespace KickOS
namespace Gthr

open Lib
open Function (update update_of_ne update_self)

variable {gens : Nat} {s s' : St} {t T r d : Nat} {a : Act} {h : Handle} {q : Pc}

theorem Moves.held_of_ne (hm : Moves s s' t q) (hT : T ≠ t) : s'.place (.held T) = s.place (.held T) :=
  congrArg Pc.held (hm.pc_of_ne hT)

theorem Moves.held_self (hm : Moves s s' t q) : s'.place (.held t) = q.held := congrArg Pc.held hm.pc_self

theorem Moves.filed (hm : Moves s s' t q) (hr : r ∉ (s.pc t).held) (hf : Filed s r) : Filed s' r := by
  obtain ⟨T, hrec, hh⟩ := hf
  exact ⟨T, by rw [hm.record]; exact hrec, by rw [hm.handle r hr, hm.self]; exact hh⟩

theorem not_held_of_list (hi : Inv s) (hr : r ∈ s.registry ∨ r ∈ s.detached) : r ∉ (s.pc t).held := by
  intro hheld
  rcases hr with hr | hr
  · cases hi.apart.apart .registry (.held t) r hr hheld
  · cases hi.apart.apart .detached (.held t) r hr hheld

theorem Moves.shift (hi : Inv s) (hm : Moves s s' t q) {p : Place} (hp : ∀ T, p ≠ .held T)
    (hrest : ∀ x, x ≠ p → (∀ T, x ≠ .held T) → s'.place x = s.place x) (hnd : (s'.place p).Nodup) (hqnd : q.held.Nodup)
    (hd : ∀ r ∈ s'.place p, r ∉ q.held)
    (hsub : ∀ r, r ∈ s'.place p ∨ r ∈ q.held → r ∈ s.place p ∨ r ∈ (s.pc t).held) :
    Apart s'.place ∧ ∀ x r, r ∈ s'.place x → ∃ x', r ∈ s.place x' := by
  have hothers : ∀ x, x ≠ p → x ≠ .held t → s'.place x = s.place x := by
    intro x hx hxt
    cases x with
    | held T => exact hm.held_of_ne fun heq => hxt (by rw [heq])
    | _ => exact hrest _ hx fun T heq => by cases heq
  refine ⟨hi.apart.move (p := p) (q := .held t) hothers hnd (by rw [hm.held_self]; exact hqnd)
    (by rw [hm.held_self]; exact hd) fun r hr => Or.inl (hsub r (hm.held_self ▸ hr)), fun x r hr => ?_⟩
  by_cases hx : x = p
  · subst hx
    rcases hsub r (Or.inl hr) with hr | hr
    · exact ⟨x, hr⟩
    · exact ⟨.held t, hr⟩
  · by_cases hxt : x = .held t
    · subst hxt
      rw [hm.held_self] at hr
      rcases hsub r (Or.inr hr) with hr | hr
      · exact ⟨p, hr⟩
      · exact ⟨.held t, hr⟩
    · exact ⟨x, hothers x hx hxt ▸ hr⟩

theorem find_inv (hi : Inv s) (hal : s.alive t = true) (hlock : s.lock = some t) (hheld : (s.pc t).held = [])
    (hne : s.pc t ≠ .exit) (hend : ¬Ending (s.pc t)) (hfind : s.find h = some r) (hq : q = .claimed r ∨ q = .unlinked r) :
    Inv { s.setPc t q with registry := s.registry.erase r } := by
  have hmem : r ∈ s.registry := List.mem_of_find?_eq_some hfind
  have hm : Moves s { s.setPc t q with registry := s.registry.erase r } t q :=
    moves_of_runs rfl ⟨rfl, rfl, rfl, rfl, rfl⟩ rfl fun _ _ hl => hl
  have hqheld : q.held = [r] := by rcases hq with rfl | rfl <;> rfl
  have hnd := hi.apart.nodup .registry
  have hshift := hm.shift hi (p := .registry) (fun T heq => by cases heq)
    (fun x hx hxT => by cases x <;> first | rfl | exact absurd rfl hx | exact absurd rfl (hxT _)) (hnd.erase r)
    (by rw [hqheld]; exact List.nodup_singleton r) (fun x hx => by
      rw [hqheld]
      intro hxr
      exact hnd.not_mem_erase (List.mem_singleton.mp hxr ▸ hx)) fun x hx => by
      rw [hqheld] at hx
      rcases hx with hx | hx
      · exact Or.inl (List.mem_of_mem_erase hx)
      · exact Or.inl (List.mem_singleton.mp hx ▸ hmem)
  refine hi.moves hm hne (hi.alive_lt hal) hshift.1 hshift.2 ?_ ?_ ?_
  · intro x hx
    have hx' : x ∈ s.registry ∨ x ∈ s.detached := hx.imp_left List.mem_of_mem_erase
    exact hm.filed (not_held_of_list hi hx') (hi.filed x hx')
  · have hf : Filed { s.setPc t q with registry := s.registry.erase r } r :=
      hm.filed (not_held_of_list hi (Or.inl hmem)) (hi.filed r (Or.inl hmem))
    rcases hq with rfl | rfl
    · exact ⟨hlock, hf⟩
    · exact ⟨hlock, hf⟩
  · intro T x hx
    refine RecOk.kept (hm.kept hne) hx (hi.recs T x hx) rfl id id (fun he => absurd he hend) fun hp => ?_
    rw [hp] at hheld
    cases hheld

theorem swap_inv (hi : Inv s) (hal : s.alive t = true) (hp : s.pc t = .unlinked r) (hst : (s.runs r).state ≠ .returned) :
    Inv { s.setPc t (.swapped r) with
          runs := update s.runs r { s.runs r with state := .detached } } := by
  have hok := hi.pcs t
  rw [hp] at hok
  have hne : s.pc t ≠ .exit := by
    rw [hp]
    simp
  have hhandle : ∀ x, (update s.runs r { s.runs r with state := .detached } x).handle = (s.runs x).handle := by
    intro x
    by_cases hx : x = r
    · subst hx
      rw [update_self]
    · rw [update_of_ne hx]
  have hstate : ∀ x, x ≠ r →
      (update s.runs r { s.runs r with state := .detached } x).state = (s.runs x).state :=
    fun x hx => by rw [update_of_ne hx]
  have hdet : (update s.runs r { s.runs r with state := .detached } r).state = .detached := by
    rw [update_self]
  have hm : Moves s { s.setPc t (.swapped r) with
      runs := update s.runs r { s.runs r with state := .detached } } t (.swapped r) := by
    refine ⟨rfl, rfl, rfl, rfl, rfl, rfl, fun _ _ hl => hl, fun x _ => hhandle x, fun x hx => ?_, fun x hx _ => ?_⟩
    · by_cases hxr : x = r
      · subst hxr
        exact hdet
      · exact (hstate x hxr).trans hx
    · refine hstate x fun hxr => hx ?_
      rw [hp, hxr]
      exact List.mem_singleton_self r
  have hf : Filed { s.setPc t (.swapped r) with
      runs := update s.runs r { s.runs r with state := .detached } } r := by
    obtain ⟨T, hrec, hh⟩ := hok.2
    exact ⟨T, hrec, (hhandle r).trans hh⟩
  refine hi.same hm hne (hi.alive_lt hal) ⟨rfl, rfl, rfl⟩ (by rw [hp]; rfl) hhandle ⟨hok.1, hf⟩ fun T x hx => ?_
  by_cases hxr : x = r
  · subst hxr
    have hold := hi.recs T x hx
    have hk := hm.kept hne
    refine ⟨fun h => ?_, fun _ => Or.inr (Or.inr (Or.inr ⟨t, hok.1, hm.pc_self⟩)), fun hfreed => ?_⟩
    · rw [hdet] at h
      cases h
    · rcases hold.freed hfreed with hd | he
      · exact Or.inl (hk.done T x hx hd)
      · have hT : T ≠ t := by
          rintro rfl
          rw [hp] at he
          rcases he with ⟨rs, he | he⟩ <;> cases he
        exact Or.inr (by rw [hm.pc_of_ne hT]; exact he)
  · refine RecOk.kept (hm.kept hne) hx (hi.recs T x hx) (hstate x hxr) id id (fun he => ?_) (by rw [hp]; simp)
    rw [hp] at he
    rcases he with ⟨rs, he | he⟩ <;> cases he

theorem push_inv (hi : Inv s) (hal : s.alive t = true) (hp : s.pc t = .swapped r) :
    Inv { s.setPc t (.unlocking [] false) with detached := r :: s.detached } := by
  have hok := hi.pcs t
  rw [hp] at hok
  have hheld : (s.pc t).held = [r] := by rw [hp]; rfl
  have hne : s.pc t ≠ .exit := by
    rw [hp]
    simp
  have hm : Moves s { s.setPc t (.unlocking [] false) with detached := r :: s.detached } t (.unlocking [] false) :=
    moves_of_runs rfl ⟨rfl, rfl, rfl, rfl, rfl⟩ rfl fun _ _ hl => hl
  have hmem : r ∈ s.place (.held t) := by
    change r ∈ (s.pc t).held
    rw [hheld]
    exact List.mem_singleton_self r
  have hout : r ∉ s.detached := fun hr => by cases hi.apart.apart .detached (.held t) r hr hmem
  have hshift := hm.shift hi (p := .detached) (fun T heq => by cases heq)
    (fun x hx hxT => by cases x <;> first | rfl | exact absurd rfl hx | exact absurd rfl (hxT _))
    (List.nodup_cons.mpr ⟨hout, hi.apart.nodup .detached⟩) List.nodup_nil (fun _ _ => List.not_mem_nil) fun x hx => by
      rcases hx with hx | hx
      · rcases List.mem_cons.mp hx with rfl | hx
        · exact Or.inr hmem
        · exact Or.inl hx
      · exact absurd hx List.not_mem_nil
  refine hi.moves hm hne (hi.alive_lt hal) hshift.1 hshift.2 ?_ ?_ ?_
  · intro x hx
    by_cases hxr : x = r
    · subst hxr
      obtain ⟨T, hrec, hh⟩ := hok.2
      exact ⟨T, hrec, hh⟩
    · have hx' : x ∈ s.registry ∨ x ∈ s.detached := by
        rcases hx with hx | hx
        · exact Or.inl hx
        · rcases List.mem_cons.mp hx with hx | hx
          · exact absurd hx hxr
          · exact Or.inr hx
      exact hm.filed (not_held_of_list hi hx') (hi.filed x hx')
  · exact ⟨hok.1, fun x hx => absurd hx List.not_mem_nil⟩
  · intro T x hx
    have hend : ¬Ending (s.pc t) := by
      rw [hp]
      rintro ⟨rs, he | he⟩ <;> cases he
    by_cases hxr : x = r
    · subst hxr
      have hold := hi.recs T x hx
      have hk := hm.kept hne
      refine ⟨fun hst => hk.done T x hx (hold.returned hst), fun _ => Or.inr (Or.inr (Or.inl List.mem_cons_self)),
        fun hf => ?_⟩
      cases hi.apart.apart .freed (.held t) x hf hmem
    · refine RecOk.kept (hm.kept hne) hx (hi.recs T x hx) rfl (List.mem_cons_of_mem r) id (fun he => absurd he hend) ?_
      rw [hp]
      exact fun heq => hxr (Pc.swapped.inj heq).symm

theorem leave_inv (hi : Inv s) (hal : s.alive t = true) (hp : s.pc t = .returned) (hrec : s.record t = some r)
    (hst : (s.runs r).state ≠ .detached) :
    Inv { s.setPc t .exit with runs := update s.runs r { s.runs r with state := .returned } } := by
  have hne : s.pc t ≠ .exit := by
    rw [hp]
    simp
  have hhandle : ∀ x, (update s.runs r { s.runs r with state := .returned } x).handle = (s.runs x).handle := by
    intro x
    by_cases hx : x = r
    · subst hx
      rw [update_self]
    · rw [update_of_ne hx]
  have hstate : ∀ x, x ≠ r →
      (update s.runs r { s.runs r with state := .returned } x).state = (s.runs x).state :=
    fun x hx => by rw [update_of_ne hx]
  have hm : Moves s { s.setPc t .exit with
      runs := update s.runs r { s.runs r with state := .returned } } t .exit := by
    refine ⟨rfl, rfl, rfl, rfl, rfl, rfl, fun _ _ hl => hl, fun x _ => hhandle x, fun x hx => ?_, fun x _ hx => ?_⟩
    · exact (hstate x fun hxr => hst (hxr ▸ hx)).trans hx
    · exact hstate x fun hxr => hx (by rw [hrec, hxr])
  have hend : ¬Ending (s.pc t) := by
    rw [hp]
    rintro ⟨rs, he | he⟩ <;> cases he
  refine hi.same hm hne (hi.alive_lt hal) ⟨rfl, rfl, rfl⟩ (by rw [hp]; rfl) hhandle trivial fun T x hx => ?_
  by_cases hxr : x = r
  · obtain rfl : T = t := hi.one T t x hx (hxr ▸ hrec)
    exact ⟨fun _ => Or.inr hm.pc_self, fun _ => Or.inl (Or.inr hm.pc_self), fun _ => Or.inl (Or.inr hm.pc_self)⟩
  · exact RecOk.kept (hm.kept hne) hx (hi.recs T x hx) (hstate x hxr) id id (fun he => absurd he hend)
      (by rw [hp]; simp)

theorem removing_mem (hi : Inv s) (hal : s.alive t = true) (hp : s.pc t = .removing) (hrec : s.record t = some r) :
    r ∈ s.detached := by
  have hok := hi.pcs t
  rw [hp] at hok
  obtain ⟨hlock, r', hrec', hst⟩ := hok
  obtain rfl := Option.some.inj (hrec.symm.trans hrec')
  rcases (hi.recs t r hrec).detached hst with hd | he | hmem | ⟨u, hu, hpu⟩
  · rcases hd with hd | hd
    · rw [hal] at hd
      cases hd
    · rw [hp] at hd
      cases hd
  · rw [hp] at he
    rcases he with ⟨rs, he | he⟩ <;> cases he
  · exact hmem
  · obtain rfl := Option.some.inj (hlock.symm.trans hu)
    rw [hp] at hpu
    cases hpu

theorem remove_inv (hi : Inv s) (hal : s.alive t = true) (hp : s.pc t = .removing) (hrec : s.record t = some r) :
    Inv { s.setPc t (.unlocking [r] true) with detached := s.detached.erase r } := by
  have hmem := removing_mem hi hal hp hrec
  have hok := hi.pcs t
  rw [hp] at hok
  have hne : s.pc t ≠ .exit := by
    rw [hp]
    simp
  have hnd := hi.apart.nodup .detached
  have hm : Moves s { s.setPc t (.unlocking [r] true) with detached := s.detached.erase r } t (.unlocking [r] true) :=
    moves_of_runs rfl ⟨rfl, rfl, rfl, rfl, rfl⟩ rfl fun _ _ hl => hl
  have hshift := hm.shift hi (p := .detached) (fun T heq => by cases heq)
    (fun x hx hxT => by cases x <;> first | rfl | exact absurd rfl hx | exact absurd rfl (hxT _)) (hnd.erase r)
    (List.nodup_singleton r) (fun x hx hxr => hnd.not_mem_erase (List.mem_singleton.mp hxr ▸ hx)) fun x hx => by
      rcases hx with hx | hx
      · exact Or.inl (List.mem_of_mem_erase hx)
      · exact Or.inl (List.mem_singleton.mp hx ▸ hmem)
  refine hi.moves hm hne (hi.alive_lt hal) hshift.1 hshift.2 ?_ ?_ ?_
  · intro x hx
    have hx' : x ∈ s.registry ∨ x ∈ s.detached := hx.imp_right List.mem_of_mem_erase
    exact hm.filed (not_held_of_list hi hx') (hi.filed x hx')
  · refine ⟨hok.1, fun x hx T hT => Or.inr ⟨?_, rfl⟩⟩
    obtain rfl := List.mem_singleton.mp hx
    exact hi.one T t x hT hrec
  · intro T x hx
    by_cases hxr : x = r
    · obtain rfl : T = t := hi.one T t x hx (hxr ▸ hrec)
      have hend : Ending (({ s.setPc T (.unlocking [r] true) with detached := s.detached.erase r } : St).pc T) :=
        ⟨[r], Or.inl hm.pc_self⟩
      exact ⟨fun hst => (hm.kept hne).done T x hx ((hi.recs T x hx).returned hst), fun _ => Or.inr (Or.inl hend),
        fun _ => Or.inr hend⟩
    · refine RecOk.kept (hm.kept hne) hx (hi.recs T x hx) rfl (fun hd => (List.mem_erase_of_ne hxr).mpr hd) id
        (fun he => ?_) (by rw [hp]; simp)
      rw [hp] at he
      rcases he with ⟨rs, he | he⟩ <;> cases he

theorem free_inv (hi : Inv s) (hal : s.alive t = true) {rs : List Nat} {ends : Bool}
    (hp : s.pc t = .freeing (r :: rs) ends) :
    Inv { s.setPc t (.freeing rs ends) with freed := r :: s.freed } := by
  have hok := hi.pcs t
  rw [hp] at hok
  have hne : s.pc t ≠ .exit := by
    rw [hp]
    simp
  have hheld : (s.pc t).held = r :: rs := by rw [hp]; rfl
  have hnd : (r :: rs).Nodup := hheld ▸ hi.apart.nodup (.held t)
  have hout : ∀ x ∈ r :: rs, x ∉ s.freed := by
    intro x hx hf
    rw [← hheld] at hx
    cases hi.apart.apart (.held t) .freed x hx hf
  have hm : Moves s { s.setPc t (.freeing rs ends) with freed := r :: s.freed } t (.freeing rs ends) :=
    moves_of_runs rfl ⟨rfl, rfl, rfl, rfl, rfl⟩ rfl fun _ _ hl => hl
  have hk := hm.kept hne
  have hshift := hm.shift hi (p := .freed) (fun T heq => by cases heq)
    (fun x hx hxT => by cases x <;> first | rfl | exact absurd rfl hx | exact absurd rfl (hxT _))
    (List.nodup_cons.mpr ⟨hout r List.mem_cons_self, hi.apart.nodup .freed⟩) (List.nodup_cons.mp hnd).2
    (fun x hx hxr => by
      rcases List.mem_cons.mp hx with rfl | hx
      · exact (List.nodup_cons.mp hnd).1 hxr
      · exact hout x (List.mem_cons_of_mem r hxr) hx) fun x hx => by
      rw [hheld]
      rcases hx with hx | hx
      · rcases List.mem_cons.mp hx with rfl | hx
        · exact Or.inr List.mem_cons_self
        · exact Or.inl hx
      · exact Or.inr (List.mem_cons_of_mem r hx)
  refine hi.moves hm hne (hi.alive_lt hal) hshift.1 hshift.2 ?_ ?_ ?_
  · exact fun x hx => hm.filed (not_held_of_list hi hx) (hi.filed x hx)
  · intro x hx T hT
    exact (hok x (List.mem_cons_of_mem r hx) T hT).imp_left (hk.done T x hT)
  · intro T x hx
    have hend : Ending (s.pc t) → Ending (({ s.setPc t (.freeing rs ends) with freed := r :: s.freed } : St).pc t) := by
      rw [hp, hm.pc_self]
      rintro ⟨rs', he | he⟩
      · cases he
      · obtain ⟨-, rfl⟩ := Pc.freeing.inj he
        exact ⟨rs, Or.inr rfl⟩
    by_cases hxr : x = r
    · subst hxr
      rcases hok x List.mem_cons_self T hx with hd | ⟨rfl, rfl⟩
      · have hd' := hk.done T x hx hd
        exact ⟨fun _ => hd', fun _ => Or.inl hd', fun _ => Or.inl hd'⟩
      · have he := hend (by rw [hp]; exact ⟨_, Or.inr rfl⟩)
        exact ⟨fun hst => hk.done T x hx ((hi.recs T x hx).returned hst), fun _ => Or.inr (Or.inl he), fun _ => Or.inr he⟩
    · refine RecOk.kept hk hx (hi.recs T x hx) rfl id (fun hf => ?_) (fun he => Or.inl (hend he)) (by rw [hp]; simp)
      rcases List.mem_cons.mp hf with hf | hf
      · exact absurd hf hxr
      · exact hf

end Gthr
end KickOS
