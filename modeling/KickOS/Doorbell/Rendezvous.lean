import KickOS.Doorbell.Steps

/-! Whole runs: what a wait that returns can rely on, and what becomes of a routed operation. -/

namespace KickOS
namespace Doorbell
open Function (update update_of_ne update_self)

variable {n : Nat} {lineCore : Int → Int} {s s' u : St n} {c t : Fin n} {a : Act n} {as : List (Act n)} {ok : St n → Prop}

theorem Run.inv (hr : Run lineCore Below s as s') (h : Inv s) (hb : Below s) : Inv s' ∧ Below s' := by
  induction hr with
  | refl => exact ⟨h, hb⟩
  | step _ hs hok ih => exact ⟨inv_step ih.1 ih.2 hs, hok⟩

theorem below_initial : Below (initial n) := fun _ _ => by
  show 0 < 0 + word
  rw [Nat.zero_add]
  exact Nat.two_pow_pos 32

theorem Run.split {bs : List (Act n)} (hr : Run lineCore ok s (as ++ bs) s') : ∃ u, Run lineCore ok s as u ∧
    Run lineCore ok u bs s' := by
  induction bs using List.reverseRecOn generalizing s' with
  | nil =>
    rw [List.append_nil] at hr
    exact ⟨s', hr, .refl⟩
  | append_singleton bs b ih =>
    rw [← List.append_assoc] at hr
    generalize hcs : as ++ bs ++ [b] = cs at hr
    cases hr with
    | refl => simp at hcs
    | @step cs' u _ b' hru hs hok =>
      obtain ⟨rfl, hb⟩ := List.append_inj' hcs rfl
      cases hb
      obtain ⟨w, hw, hrw⟩ := ih hru
      exact ⟨w, hw, hrw.step hs hok⟩

theorem Run.single (hr : Run lineCore ok s [a] s') : s.step lineCore a = some s' := by
  generalize hcs : [a] = cs at hr
  cases hr with
  | refl => cases hcs
  | @step cs' u _ b hru hs hok =>
    rw [← List.nil_append [a]] at hcs
    obtain ⟨hnil, hb⟩ := List.append_inj' hcs rfl
    cases hb
    generalize hds : cs' = ds at hru
    cases hru with
    | refl => exact hs
    | step =>
      rw [← hnil] at hds
      simp at hds

/-! ### A wait that returns -/

/-- In these acts `t` has, in one pass, read the request of `c`, run the fence and the drain, and answered it. -/
def Served (c t : Fin n) (as : List (Act n)) : Prop :=
  ∃ as1 as2 as3, as = as1 ++ .load t c :: as2 ++ .answer t c :: as3 ∧ .fence t ∈ as2 ∧ .drained t ∈ as2 ∧
    .service t ∉ as2 ∧ .finish t ∉ as2

theorem Served.append (h : Served c t as) (bs : List (Act n)) : Served c t (as ++ bs) := by
  obtain ⟨as1, as2, as3, rfl, hrest⟩ := h
  exact ⟨as1, as2, as3 ++ bs, by simp, hrest⟩

/-- The pass will answer `c` with what it has read. -/
def Pass.Holds (c : Fin n) : Pass n → Prop
  | .snapshot _ owed => owed = true
  | .publish rest => c ∈ rest
  | .out => False
  | _ => True

def Pass.Fenced : Pass n → Prop
  | .snapshot .. | .out => False
  | _ => True

def Pass.Drained : Pass n → Prop
  | .publish _ => True
  | _ => False

/-- How far the request `r` of `c` has come on `t` in these acts. -/
inductive Track (c t : Fin n) (r : Nat) (as : List (Act n)) (s : St n) : Prop
  | waiting (hasked : s.asked t c < r)
  | loaded (hanswer : s.answer t c < r) (hasked : s.asked t c = r) (as1 as2 : List (Act n)) (has : as = as1 ++ .load t c :: as2)
    (hservice : .service t ∉ as2) (hfinish : .finish t ∉ as2) (hholds : (s.pass t).Holds c)
      (hfence : (s.pass t).Fenced → .fence t ∈ as2)
    (hdrained : (s.pass t).Drained → .drained t ∈ as2)
  | served (h : Served c t as)

def Act.passCore : Act n → Option (Fin n)
  | .own c true => some c
  | .service t | .load t _ | .fence t | .fetch t _ | .fetchLine t | .fetchOp t | .perform t _ _ _ | .storeRan t
    | .drained t | .answer t _
  | .finish t => some t
  | _ => none

theorem pass_kept (hs : s.step lineCore a = some s') (ht : a.passCore ≠ some t) :
    s'.pass t = s.pass t ∧ s'.answer t = s.answer t ∧ s'.asked t = s.asked t ∧ s'.ran t = s.ran t := by
  have hne : ∀ {d : Fin n}, a.passCore = some d → t ≠ d := by
    rintro d hd rfl
    exact ht hd
  cases step_does hs with
  | poll | service | fence | fetch | fetchLine | fetchOp | perform | drained | answered | idle | finish =>
    exact ⟨update_of_ne (hne rfl) .., rfl, rfl, rfl⟩
  | load => exact ⟨update_of_ne (hne rfl) .., rfl, update_of_ne (hne rfl) .., rfl⟩
  | storeRan => exact ⟨update_of_ne (hne rfl) .., rfl, rfl, update_of_ne (hne rfl) ..⟩
  | answer => exact ⟨update_of_ne (hne rfl) .., update_of_ne (hne rfl) .., rfl, rfl⟩
  | send | bump | skip | own | sent | raise | wait | look | spin | settle | waited | route | here | storeLine
    | storeOp | storeSeq =>
    exact ⟨rfl, rfl, rfl, rfl⟩

theorem request_kept (hs : s.step lineCore a = some s') (hne : a ≠ .bump c t) : s'.request c t = s.request c t := by
  cases step_does hs with
  | @bump d u =>
    refine set2_of_ne ?_
    rintro ⟨rfl, rfl⟩
    exact hne rfl
  | send | skip | poll | own | sent | raise | wait | look | spin | settle | waited | route | here | storeLine
    | storeOp | storeSeq | service | load
  | fence | fetch | fetchLine | fetchOp | perform | storeRan | drained | answer | answered | idle | finish => rfl

theorem Track.move {r : Nat} {as1 as2 : List (Act n)} (hanswer : s'.answer t c < r) (hasked : s'.asked t c = r)
    (has : as = as1 ++ .load t c :: as2) (hservice : .service t ∉ as2) (hfinish : .finish t ∉ as2)
    (hne : a ≠ .service t ∧ a ≠ .finish t) (hholds : (s'.pass t).Holds c) (hfence : (s'.pass t).Fenced →
    .fence t ∈ as2 ∨ a = .fence t) (hdrained : (s'.pass t).Drained → .drained t ∈ as2 ∨ a = .drained t) :
    Track c t r (as ++ [a]) s' := by
  refine .loaded hanswer hasked as1 (as2 ++ [a]) (by rw [has]; simp) ?_ ?_ hholds (fun hf => ?_) fun hd => ?_
  · simp only [List.mem_append, List.mem_singleton, not_or]
    exact ⟨hservice, fun hh => hne.1 hh.symm⟩
  · simp only [List.mem_append, List.mem_singleton, not_or]
    exact ⟨hfinish, fun hh => hne.2 hh.symm⟩
  · rcases hfence hf with hm | rfl
    · exact List.mem_append_left _ hm
    · simp
  · rcases hdrained hd with hm | rfl
    · exact List.mem_append_left _ hm
    · simp

theorem served_of_answer {as1 as2 : List (Act n)} (has : as = as1 ++ .load t c :: as2) (hservice : .service t ∉ as2)
    (hfinish : .finish t ∉ as2) (hfence : .fence t ∈ as2) (hdrained : .drained t ∈ as2) :
    Served c t (as ++ [.answer t c]) :=
  ⟨as1, as2, [], by rw [has], hfence, hdrained, hservice, hfinish⟩

@[simp] theorem setPass_pass {q : Pass n} : (s.setPass t q).pass t = q := update_self ..

theorem track_loaded {r : Nat} {as1 as2 : List (Act n)} (hb : Below s) (hr : s.request c t = r) (hs : s.step lineCore a = some s')
    (ht : a.passCore = some t) (hanswer : s.answer t c < r) (hasked : s.asked t c = r) (has : as = as1 ++ .load t c :: as2)
    (hservice : .service t ∉ as2) (hfinish : .finish t ∉ as2) (hholds : (s.pass t).Holds c)
      (hfence : (s.pass t).Fenced → .fence t ∈ as2)
    (hdrained : (s.pass t).Drained → .drained t ∈ as2) : Track c t r (as ++ [a]) s' := by
  cases step_does hs with
  | poll hout hp =>
    obtain rfl := Option.some.inj ht
    rw [hout] at hholds
    exact hholds.elim
  | service hq =>
    obtain rfl := Option.some.inj ht
    rw [hq] at hholds
    exact hholds.elim
  | @load u i rest owed hq =>
    obtain rfl := Option.some.inj ht
    rw [hq] at hholds
    have howed : owed = true := hholds
    refine .move hanswer ?_ has hservice hfinish ⟨by simp, by simp⟩ ?_ ?_ ?_
    · show set2 s.asked u i (s.request i u) u c = r
      by_cases hi : c = i
      · subst hi
        rw [set2_self, hr]
      · rw [set2_of_ne fun hh => hi hh.2]
        exact hasked
    · rw [setPass_pass, howed]
      exact Bool.true_or _
    · rw [setPass_pass]
      exact fun hf => hf.elim
    · rw [setPass_pass]
      exact fun hf => hf.elim
  | fence hq =>
    obtain rfl := Option.some.inj ht
    refine .move hanswer hasked has hservice hfinish ⟨by simp, by simp⟩ ?_ (fun _ => Or.inr rfl) ?_
    · rw [setPass_pass]
      trivial
    · rw [setPass_pass]
      exact fun hf => hf.elim
  | fetch hq =>
    obtain rfl := Option.some.inj ht
    rw [hq] at hfence
    refine .move hanswer hasked has hservice hfinish ⟨by simp, by simp⟩ ?_ (fun _ => Or.inl (hfence trivial)) ?_
    · rw [setPass_pass]
      split <;> trivial
    · rw [setPass_pass]
      split <;> exact fun hf => hf.elim
  | fetchLine hq | fetchOp hq | perform hq | storeRan hq =>
    obtain rfl := Option.some.inj ht
    rw [hq] at hfence
    refine .move hanswer hasked has hservice hfinish ⟨by simp, by simp⟩ ?_ (fun _ => Or.inl (hfence trivial)) ?_
    · rw [setPass_pass]
      trivial
    · rw [setPass_pass]
      exact fun hf => hf.elim
  | drained hq =>
    obtain rfl := Option.some.inj ht
    rw [hq] at hfence
    refine .move hanswer hasked has hservice hfinish ⟨by simp, by simp⟩ ?_ (fun _ => Or.inl (hfence trivial))
      (fun _ => Or.inr rfl)
    rw [setPass_pass]
    exact List.mem_finRange c
  | @answer u i rest hq hword =>
    obtain rfl := Option.some.inj ht
    rw [hq] at hfence hdrained hholds
    by_cases hi : c = i
    · subst hi
      exact .served (served_of_answer has hservice hfinish (hfence trivial) (hdrained trivial))
    · refine .move ?_ hasked has hservice hfinish ⟨by simp, by simp⟩ ?_ (fun _ => Or.inl (hfence trivial))
        (fun _ => Or.inl (hdrained trivial))
      · show set2 s.answer u i (s.asked u i) u c < r
        rw [set2_of_ne fun hh => hi hh.2]
        exact hanswer
      · show (update s.pass u (.publish rest) u).Holds c
        rw [update_self]
        exact (List.mem_cons.mp hholds).resolve_left hi
  | @answered u i rest hq hword =>
    obtain rfl := Option.some.inj ht
    rw [hq] at hfence hdrained hholds
    by_cases hi : c = i
    · -- the words differ, so the answer is stored
      subst hi
      rw [hasked] at hword
      have hlt := hb c u
      rw [hr] at hlt
      have := eq_of_word hanswer.le hlt hword
      exact absurd this.symm (Nat.ne_of_lt hanswer)
    · refine .move hanswer hasked has hservice hfinish ⟨by simp, by simp⟩ ?_ (fun _ => Or.inl (hfence trivial))
        (fun _ => Or.inl (hdrained trivial))
      rw [setPass_pass]
      exact (List.mem_cons.mp hholds).resolve_left hi
  | idle hq =>
    obtain rfl := Option.some.inj ht
    rw [hq] at hholds
    cases hholds
  | finish hq =>
    obtain rfl := Option.some.inj ht
    rw [hq] at hholds
    cases hholds
  | send | bump | skip | own | sent | raise | wait | look | spin | settle | waited | route | here | storeLine
    | storeOp | storeSeq => cases ht

theorem track_step {r : Nat} (h : Inv s) (hb : Below s) (hr : s.request c t = r) (hs : s.step lineCore a = some s')
    (htr : Track c t r as s) : Track c t r (as ++ [a]) s' := by
  cases htr with
  | served hserved => exact .served (hserved.append [a])
  | waiting hasked =>
    by_cases hload : a = .load t c
    · subst hload
      cases step_does hs with
      | @load _ _ rest owed hq =>
        have hans : s.answer t c < r := lt_of_le_of_lt (h c t).answered hasked
        refine .loaded hans ?_ as [] rfl (by simp) (by simp) ?_ ?_ ?_
        · show set2 s.asked t c (s.request c t) t c = r
          rw [set2_self, hr]
        · show (update s.pass t _ t).Holds c
          rw [update_self]
          show (owed || decide (s.request c t % word ≠ s.answer t c % word)) = true
          have hdiffer : s.request c t % word ≠ s.answer t c % word := fun hw => by
            have := eq_of_word (by rw [hr]; exact hans.le) (hb c t) hw
            rw [hr] at this
            exact absurd this.symm (Nat.ne_of_lt hans)
          rw [decide_eq_true hdiffer, Bool.or_true]
        · show (update s.pass t _ t).Fenced → _
          rw [update_self]
          exact fun hf => hf.elim
        · show (update s.pass t _ t).Drained → _
          rw [update_self]
          exact fun hf => hf.elim
    · refine .waiting ?_
      have hkept : s'.asked t c = s.asked t c := by
        by_cases ht : a.passCore = some t
        · cases step_does hs with
          | @load u i =>
            refine set2_of_ne ?_
            rintro ⟨rfl, rfl⟩
            exact hload rfl
          | poll | service | fence | fetch | fetchLine | fetchOp | perform | storeRan | drained | answer | answered
            | idle | finish => rfl
          | send | bump | skip | own | sent | raise | wait | look | spin | settle | waited | route | here | storeLine
            | storeOp | storeSeq => cases ht
        · exact congrFun (pass_kept hs ht).2.2.1 c
      rw [hkept]
      exact hasked
  | loaded hanswer hasked as1 as2 has hservice hfinish hholds hfence hdrained =>
    by_cases ht : a.passCore = some t
    · exact track_loaded hb hr hs ht hanswer hasked has hservice hfinish hholds hfence hdrained
    · obtain ⟨hpass, hans, hask, -⟩ := pass_kept hs ht
      have hne : a ≠ .service t ∧ a ≠ .finish t := by
        refine ⟨?_, ?_⟩
        · rintro rfl
          exact ht rfl
        · rintro rfl
          exact ht rfl
      refine .move (by rw [hans]; exact hanswer) (by rw [hask]; exact hasked) has hservice hfinish hne
        (by rw [hpass]; exact hholds) ?_ ?_
      · rw [hpass]
        exact fun hf => Or.inl (hfence hf)
      · rw [hpass]
        exact fun hd => Or.inl (hdrained hd)

theorem track_run {r : Nat} (h : Inv s) (hb : Below s) (hr : s.request c t = r) (hasked : s.asked t c < r)
    (hrun : Run lineCore Below s as s') (hno : .bump c t ∉ as) : Track c t r as s' ∧ s'.request c t = r := by
  induction hrun with
  | refl => exact ⟨.waiting hasked, hr⟩
  | @step as u v a hru hs hok ih =>
    simp only [List.mem_append, List.mem_singleton, not_or] at hno
    obtain ⟨htr, hreq⟩ := ih hno.1
    obtain ⟨hi, hbu⟩ := hru.inv h hb
    exact ⟨track_step hi hbu hreq hs htr, (request_kept hs fun ha => hno.2 ha.symm).trans hreq⟩

theorem served_before_return {pre : List (Act n)} {cores : Fin n → Bool} {routed : Option (Routed n)}
    (hrun : Run lineCore Below (initial n) (pre ++ .bump c t :: as) s) (hno : .bump c t ∉ as)
      (hp : s.prog c = .look [] cores routed)
    (hcores : cores t = true) (hne : t ≠ c) : Served c t as := by
  have happ : pre ++ .bump c t :: as = pre ++ [.bump c t] ++ as := by simp
  rw [happ] at hrun
  obtain ⟨s1, hpre, has⟩ := hrun.split
  obtain ⟨s0, hpre0, hlast⟩ := hpre.split
  obtain ⟨h0, hb0⟩ := hpre0.inv inv_initial below_initial
  obtain ⟨h1, hb1⟩ := hpre.inv inv_initial below_initial
  obtain ⟨h, hb⟩ := has.inv h1 hb1
  have hbump : s1.request c t = s0.request c t + 1 ∧ s1.asked t c = s0.asked t c := by
    cases step_does hlast.single with
    | bump => exact ⟨set2_self, rfl⟩
  have hasked : s1.asked t c < s1.request c t := by
    rw [hbump.1, hbump.2]
    exact Nat.lt_succ_of_le (h0 c t).loaded
  obtain ⟨htr, hreq⟩ := track_run h1 hb1 rfl hasked has hno
  have heq : s.answer t c = s.request c t := by
    have hw := (h.at hp t).waits hcores hne
    rcases hw with hmem | heq
    · cases hmem
    · exact heq
  cases htr with
  | served hserved => exact hserved
  | waiting hlt =>
    have := (h c t).answered
    rw [heq, hreq] at this
    exact absurd hlt (Nat.not_lt.mpr this)
  | loaded hlt =>
    rw [heq, hreq] at hlt
    exact absurd hlt (lt_irrefl _)

end Doorbell
end KickOS
