import KickOS.Doorbell.Rendezvous

/-! Routed operations: each is performed once, by the core it is routed to, before the asker's wait returns. -/

namespace KickOS
namespace Doorbell
open Function (update update_of_ne update_self)

variable {n : Nat} {lineCore : Int → Int} {s s' : St n} {c t : Fin n} {a : Act n} {as : List (Act n)}

/-! ### What a run asks for, performs and returns from -/

/-- An operation of `c` routed to `t`. -/
def asks (lineCore : Int → Int) (c t : Fin n) : Act n → Option (Int × LineOp)
  | .lineOp c' line op isr => if c' = c ∧ route n lineCore c' line isr = some t then some (line, op) else none
  | _ => none

/-- An operation `t` performs for `c`. -/
def performs (c t : Fin n) : Act n → Option (Int × LineOp)
  | .perform t' c' line op => if t' = t ∧ c' = c then some (line, op) else none
  | _ => none

/-- `c` returns from an operation routed to `t`. -/
def returns (c t : Fin n) : Act n → Option (Int × LineOp)
  | .waited c' (some r) => if c' = c ∧ r.owner = t then some (r.line, r.op) else none
  | _ => none

/-- The operation routed to `t` that is under way. -/
def Prog.routedTo (t : Fin n) (p : Prog n) : List (Int × LineOp) :=
  match p.routed with
  | some r => if r.owner = t then [(r.line, r.op)] else []
  | none => []

def Pass.Performed (c : Fin n) : Pass n → Prop
  | .performed i _ _ => i = c
  | _ => False

/-- The operation of `c` routed to `t` is posted and performed. -/
def Done (s : St n) (c t : Fin n) : Prop :=
  (∃ r, (s.prog c).posted = some r ∧ r.owner = t) ∧ (s.ran t c = (s.ask c t).seq ∨ (s.pass t).Performed c)

/-- What is asked is what is returned from and what is under way; what is performed is behind by the latter at most. -/
structure Logged (lineCore : Int → Int) (as : List (Act n)) (s : St n) (c t : Fin n) : Prop where
  asked : as.filterMap (asks lineCore c t) = as.filterMap (returns c t) ++ (s.prog c).routedTo t
  done : Done s c t → as.filterMap (performs c t) = as.filterMap (returns c t) ++ (s.prog c).routedTo t
  waiting : ¬ Done s c t → as.filterMap (performs c t) = as.filterMap (returns c t)

theorem logged_initial : Logged lineCore [] (initial n) c t := by
  refine ⟨rfl, ?_, fun _ => rfl⟩
  rintro ⟨⟨r, hr, -⟩, -⟩
  cases hr

/-! ### One step -/

theorem filterMap_none {α β : Type} {f : α → Option β} {l : List α} {x : α} (h : f x = none) :
    (l ++ [x]).filterMap f = l.filterMap f := by
  simp [h]

theorem filterMap_some {α β : Type} {f : α → Option β} {l : List α} {x : α} {y : β} (h : f x = some y) :
    (l ++ [x]).filterMap f = l.filterMap f ++ [y] := by
  simp [h]

theorem Logged.same (h : Logged lineCore as s c t) (hasks : asks lineCore c t a = none) (hperforms : performs c t a = none)
    (hreturns : returns c t a = none) (hrouted : (s'.prog c).routed = (s.prog c).routed) (hdone : Done s' c t ↔ Done s c t) :
    Logged lineCore (as ++ [a]) s' c t := by
  have hto : (s'.prog c).routedTo t = (s.prog c).routedTo t := by
    unfold Prog.routedTo
    rw [hrouted]
  refine ⟨?_, fun hd => ?_, fun hd => ?_⟩
  · rw [filterMap_none hasks, filterMap_none hreturns, hto]
    exact h.asked
  · rw [filterMap_none hperforms, filterMap_none hreturns, hto]
    exact h.done (hdone.mp hd)
  · rw [filterMap_none hperforms, filterMap_none hreturns]
    exact h.waiting fun hc => hd (hdone.mpr hc)

theorem done_congr (hposted : (s'.prog c).posted = (s.prog c).posted) (hran : s'.ran t c = s.ran t c)
    (hseq : (s'.ask c t).seq = (s.ask c t).seq) (hpass : (s'.pass t).Performed c ↔ (s.pass t).Performed c) :
      Done s' c t ↔ Done s c t := by
  unfold Done
  rw [hposted, hran, hseq, hpass]

theorem not_done (h : ∀ r, (s.prog c).posted = some r → r.owner ≠ t) : ¬ Done s c t := by
  rintro ⟨⟨r, hr, ht⟩, -⟩
  exact h r hr ht

theorem Logged.setProg {p p' : Prog n} {d : Fin n} (h : Logged lineCore as s c t) (hp : s.prog d = p)
    (hprog : s'.prog = update s.prog d p') (hrouted : p'.routed = p.routed) (hposted : p'.posted = p.posted)
      (hask : (s'.ask c t).seq = (s.ask c t).seq)
    (hran : s'.ran = s.ran) (hpass : (s'.pass t).Performed c ↔ (s.pass t).Performed c)
    (hasks : asks lineCore c t a = none) (hperforms : performs c t a = none) (hreturns : returns c t a = none) :
    Logged lineCore (as ++ [a]) s' c t := by
  have hkeep : (s'.prog c).routed = (s.prog c).routed ∧ (s'.prog c).posted = (s.prog c).posted := by
    rw [hprog]
    by_cases hd : c = d
    · subst hd
      rw [update_self, hp]
      exact ⟨hrouted, hposted⟩
    · rw [update_of_ne hd]
      exact ⟨rfl, rfl⟩
  exact h.same hasks hperforms hreturns hkeep.1 (done_congr hkeep.2 (by rw [hran]) hask hpass)

theorem Logged.setPass {q q' : Pass n} {u : Fin n} (h : Logged lineCore as s c t) (hq : s.pass u = q)
    (hpass : s'.pass = update s.pass u q') (hnot : ¬ q.Performed c) (hnot' : ¬ q'.Performed c) (hprog : s'.prog = s.prog)
    (hask : s'.ask = s.ask) (hran : s'.ran = s.ran)
    (hasks : asks lineCore c t a = none) (hperforms : performs c t a = none) (hreturns : returns c t a = none) :
    Logged lineCore (as ++ [a]) s' c t := by
  refine h.same hasks hperforms hreturns (by rw [hprog]) (done_congr (by rw [hprog]) (by rw [hran]) (by rw [hask]) ?_)
  rw [hpass]
  by_cases hu : t = u
  · subst hu
    rw [update_self, hq]
    exact iff_of_false hnot' hnot
  · rw [update_of_ne hu]

theorem Inv.posted_of_mid {q : Pass n} {seq : Nat} (h : Inv s) (hq : s.pass t = q) (hm : q.mid c = some seq) :
    ∃ r, (s.prog c).posted = some r ∧ r.owner = t ∧ seq = (s.ask c t).seq ∧ s.ran t c ≠ (s.ask c t).seq := by
  have hpair := h.in hq c
  obtain ⟨hseq, hone⟩ := hpair.mid seq hm
  have hne : s.ran t c ≠ (s.ask c t).seq := by
    rw [hone]
    exact Nat.ne_of_lt (Nat.lt_succ_self _)
  by_contra hno
  refine hne (hpair.quiet fun r hr ht => hno ⟨r, hr, ht, hseq, hne⟩)

theorem posted_routed {p : Prog n} {r : Routed n} (h : p.posted = some r) : p.routed = some r := by
  cases p with
  | idle | line | op | seq => cases h
  | bump | raise | look | spin => exact h

theorem posted_names {p : Prog n} {r : Routed n} {ask : Ask} (h : p.posted = some r) (hn : p.Names c t ask) (ht : r.owner = t) :
    ask.line = r.line ∧ ask.op = r.op := by
  cases p with
  | idle | line | op | seq => cases h
  | bump | raise | look | spin => exact (hn r h).2.2 ht

theorem Logged.perform {i u : Fin n} {seq : Nat} {line : Int} {op : LineOp} {rest : List (Fin n)} (h : Inv s)
    (hl : Logged lineCore as s c t) (hq : s.pass u = .ready i seq line op rest) :
    Logged lineCore (as ++ [.perform u i line op]) (s.setPass u (.performed i seq rest)) c t := by
  by_cases hpair : u = t ∧ i = c
  · obtain ⟨rfl, rfl⟩ := hpair
    obtain ⟨r, hr, howner, -, hne⟩ := h.posted_of_mid hq (if_pos rfl)
    have hread := (h.in hq i).read rfl
    obtain ⟨hline, hop⟩ := posted_names hr (h.in hq i).names howner
    have hto : (s.prog i).routedTo u = [(line, op)] := by
      unfold Prog.routedTo
      rw [posted_routed hr]
      simp [howner, hread.1, hread.2, hline, hop]
    have hnot : ¬ Done s i u := by
      rintro ⟨-, hran | hperf⟩
      · exact hne hran
      · rw [hq] at hperf
        exact hperf
    have hdone : Done (s.setPass u (.performed i seq rest)) i u := by
      refine ⟨⟨r, hr, howner⟩, Or.inr ?_⟩
      rw [setPass_pass]
      rfl
    refine ⟨?_, fun _ => ?_, fun hno => absurd hdone hno⟩
    · rw [filterMap_none rfl, filterMap_none rfl]
      exact hl.asked
    · rw [filterMap_some (y := (line, op)) (by simp [performs]), filterMap_none rfl, hl.waiting hnot]
      exact congrArg _ hto.symm
  · have hperforms : performs c t (.perform u i line op) = none := by
      simp [performs, hpair]
    refine hl.same rfl hperforms rfl rfl (done_congr rfl rfl rfl ?_)
    by_cases hu : t = u
    · subst hu
      rw [setPass_pass, hq]
      exact iff_of_false (fun hi => hpair ⟨rfl, hi⟩) id
    · show (update s.pass u _ t).Performed c ↔ _
      rw [update_of_ne hu]

theorem Logged.storeRan {i u : Fin n} {seq : Nat} {rest : List (Fin n)} (h : Inv s) (hl : Logged lineCore as s c t)
    (hq : s.pass u = .performed i seq rest) :
    Logged lineCore (as ++ [.storeRan u]) ({ s with ran := set2 s.ran u i seq }.setPass u (.drain rest)) c t := by
  refine hl.same rfl rfl rfl rfl ?_
  by_cases hu : t = u
  · subst hu
    by_cases hi : i = c
    · subst hi
      obtain ⟨r, hr, howner, hseq, -⟩ := h.posted_of_mid hq (if_pos rfl)
      refine iff_of_true ⟨⟨r, hr, howner⟩, Or.inl ?_⟩ ⟨⟨r, hr, howner⟩, Or.inr ?_⟩
      · show set2 s.ran t i seq t i = _
        rw [set2_self]
        exact hseq
      · rw [hq]
        rfl
    · refine done_congr rfl (set2_of_ne fun hh => hi hh.2.symm) rfl ?_
      rw [setPass_pass, hq]
      exact iff_of_false id hi
  · refine done_congr rfl (set2_of_ne fun hh => hu hh.1) rfl ?_
    show (update s.pass u _ t).Performed c ↔ _
    rw [update_of_ne hu]

theorem Logged.route {d u : Fin n} {line : Int} {op : LineOp} {isr : Bool} (hl : Logged lineCore as s c t) (hp : s.prog d = .idle)
    (ht : route n lineCore d line isr = some u) : Logged lineCore (as ++ [.lineOp d line op isr])
      (s.setProg d (.line ⟨u, line, op⟩)) c t := by
  by_cases hd : c = d
  · subst hd
    have hprog : (s.setProg c (.line ⟨u, line, op⟩)).prog c = .line ⟨u, line, op⟩ := update_self ..
    have hnot : ¬ Done s c t := not_done fun r hr => by
      rw [hp] at hr
      cases hr
    have hnot' : ¬ Done (s.setProg c (.line ⟨u, line, op⟩)) c t := not_done fun r hr => by
      rw [hprog] at hr
      cases hr
    have hidle := hl.asked
    rw [hp] at hidle
    have hidle : as.filterMap (asks lineCore c t) = as.filterMap (returns c t) := by
      rw [hidle]
      exact List.append_nil _
    refine ⟨?_, fun hd => absurd hd hnot', fun _ => ?_⟩
    · rw [filterMap_none (f := returns c t) rfl, hprog]
      by_cases hu : u = t
      · subst hu
        rw [filterMap_some (y := (line, op)) (by simp [asks, ht]), hidle]
        simp [Prog.routedTo, Prog.routed]
      · rw [filterMap_none (by simp [asks, ht, hu]), hidle]
        simp [Prog.routedTo, Prog.routed, hu]
    · rw [filterMap_none rfl, filterMap_none (f := returns c t) rfl]
      exact hl.waiting hnot
  · have hprog : (s.setProg d (.line ⟨u, line, op⟩)).prog c = s.prog c := update_of_ne hd ..
    refine hl.same ?_ rfl rfl (by rw [hprog]) (done_congr (by rw [hprog]) rfl rfl Iff.rfl)
    simp only [asks]
    rw [if_neg fun hh => hd hh.1.symm]

theorem Logged.storeSeq {d : Fin n} {r : Routed n} (h : Inv s) (hl : Logged lineCore as s c t) (hp : s.prog d = .seq r) :
    Logged lineCore (as ++ [.storeSeq d])
      ({ s with ask := set2 s.ask d r.owner { s.ask d r.owner with seq := (s.ask d r.owner).seq + 1 } }.setProg d
        (.bump (List.finRange n) (fun t => decide (t = r.owner)) (some r))) c t := by
  by_cases hd : c = d
  · subst hd
    have hnone : ∀ r', (s.prog c).posted = some r' → r'.owner ≠ t := fun r' hr' => by
      rw [hp] at hr'
      cases hr'
    refine hl.same rfl rfl rfl ?_ (iff_of_false ?_ (not_done hnone))
    · show (update s.prog c _ c).routed = _
      rw [update_self, hp]
      rfl
    · rintro ⟨⟨r', hr', howner⟩, hdone⟩
      have hr' : r = r' := by
        change (update s.prog c _ c).posted = some r' at hr'
        rw [update_self] at hr'
        exact Option.some.inj hr'
      subst hr' howner
      have hran := (h c r.owner).quiet hnone
      rcases hdone with hran' | hperf
      · change s.ran r.owner c = (set2 s.ask c r.owner _ c r.owner).seq at hran'
        rw [set2_self, hran] at hran'
        exact absurd hran' (Nat.ne_of_lt (Nat.lt_succ_self _))
      · change (s.pass r.owner).Performed c at hperf
        have hmid := (h c r.owner).unread hran
        cases hq : s.pass r.owner with
        | performed i seq rest =>
          rw [hq] at hperf hmid
          simp [Pass.mid, show i = c from hperf] at hmid
        | out | snapshot | drain | fetched | lined | ready | publish =>
          rw [hq] at hperf
          exact hperf
  · refine hl.same rfl rfl rfl ?_ (done_congr ?_ rfl ?_ Iff.rfl)
    · show (update s.prog d _ c).routed = _
      rw [update_of_ne hd]
    · show (update s.prog d _ c).posted = _
      rw [update_of_ne hd]
    · show (set2 s.ask d r.owner _ c t).seq = _
      rw [set2_of_ne fun hh => hd hh.1]

theorem Logged.waited {d : Fin n} {cores : Fin n → Bool} {routed : Option (Routed n)} (h : Inv s) (hl : Logged lineCore as s c t)
    (hp : s.prog d = .look [] cores routed) : Logged lineCore (as ++ [.waited d routed]) (s.setProg d .idle) c t := by
  by_cases hd : c = d
  · subst hd
    have hprog : (s.setProg c .idle).prog c = .idle := update_self ..
    have hnot' : ¬ Done (s.setProg c .idle) c t := not_done fun r hr => by
      rw [hprog] at hr
      cases hr
    by_cases ht : ∃ r, routed = some r ∧ r.owner = t
    · obtain ⟨r, rfl, howner⟩ := ht
      have hdone : Done s c t := by
        refine ⟨⟨r, ?_, howner⟩, Or.inl (h.at hp t).waited⟩
        rw [hp]
        rfl
      have hto : (s.prog c).routedTo t = [(r.line, r.op)] := by
        simp [Prog.routedTo, hp, Prog.routed, howner]
      have hret : returns c t (.waited c (some r)) = some (r.line, r.op) := by
        simp [returns, howner]
      refine ⟨?_, fun hd => absurd hd hnot', fun _ => ?_⟩
      · rw [filterMap_none (f := asks lineCore c t) rfl, filterMap_some hret, hprog, hl.asked, hto]
        exact (List.append_nil _).symm
      · rw [filterMap_none (f := performs c t) rfl, filterMap_some hret, hl.done hdone, hto]
    · have hto : (s.prog c).routedTo t = [] := by
        unfold Prog.routedTo
        rw [hp]
        cases routed with
        | none => rfl
        | some r => exact if_neg fun howner => ht ⟨r, rfl, howner⟩
      have hret : returns c t (.waited c routed) = none := by
        cases routed with
        | none => rfl
        | some r => simp [returns, show r.owner ≠ t from fun howner => ht ⟨r, rfl, howner⟩]
      have hnot : ¬ Done s c t := not_done fun r hr howner => by
        rw [hp] at hr
        exact ht ⟨r, hr, howner⟩
      refine ⟨?_, fun hd => absurd hd hnot', fun _ => ?_⟩
      · rw [filterMap_none (f := asks lineCore c t) rfl, filterMap_none hret, hprog, hl.asked, hto]
        rfl
      · rw [filterMap_none (f := performs c t) rfl, filterMap_none hret]
        exact hl.waiting hnot
  · have hprog : (s.setProg d .idle).prog c = s.prog c := update_of_ne hd ..
    refine hl.same rfl rfl ?_ (by rw [hprog]) (done_congr (by rw [hprog]) rfl rfl Iff.rfl)
    cases routed with
    | none => rfl
    | some r => simp [returns, show d ≠ c from fun hh => hd hh.symm]

theorem logged_step (h : Inv s) (hs : s.step lineCore a = some s') (hl : Logged lineCore as s c t) :
    Logged lineCore (as ++ [a]) s' c t := by
  cases step_does hs with
  | send hout hp => exact hl.setProg hp rfl rfl rfl rfl rfl Iff.rfl rfl rfl rfl
  | bump hout hp => exact hl.setProg hp rfl rfl rfl rfl rfl Iff.rfl rfl rfl rfl
  | skip hout hp => exact hl.setProg hp rfl rfl rfl rfl rfl Iff.rfl rfl rfl rfl
  | @poll d cores routed hout hp =>
    refine hl.setProg hp rfl rfl rfl rfl rfl ?_ rfl rfl rfl
    show (update s.pass d _ t).Performed c ↔ _
    by_cases ht : t = d
    · subst ht
      rw [update_self, hout]
      exact Iff.rfl
    · rw [update_of_ne ht]
  | own hout hp => exact hl.setProg hp rfl rfl rfl rfl rfl Iff.rfl rfl rfl rfl
  | sent hout hp => exact hl.setProg hp rfl rfl rfl rfl rfl Iff.rfl rfl rfl rfl
  | raise hout hp => exact hl.setProg hp rfl rfl rfl rfl rfl Iff.rfl rfl rfl rfl
  | wait hout hp => exact hl.setProg hp rfl rfl rfl rfl rfl Iff.rfl rfl rfl rfl
  | @look d u rest cores routed hout hp =>
    refine hl.setProg hp rfl ?_ ?_ rfl rfl Iff.rfl rfl rfl rfl
    · split <;> rfl
    · split <;> rfl
  | spin => exact hl.same rfl rfl rfl rfl Iff.rfl
  | settle hout hp hword => exact hl.setProg hp rfl rfl rfl rfl rfl Iff.rfl rfl rfl rfl
  | waited hout hp => exact hl.waited h hp
  | route hout hp ht => exact hl.route hp ht
  | @here d line op isr ht => exact hl.same (by simp [asks, ht]) rfl rfl rfl Iff.rfl
  | @storeLine d r hout hp =>
    refine hl.setProg hp rfl rfl rfl ?_ rfl Iff.rfl rfl rfl rfl
    show (set2 s.ask d r.owner _ c t).seq = _
    by_cases hc : c = d ∧ t = r.owner
    · rw [hc.1, hc.2, set2_self]
    · rw [set2_of_ne hc]
  | @storeOp d r hout hp =>
    refine hl.setProg hp rfl rfl rfl ?_ rfl Iff.rfl rfl rfl rfl
    show (set2 s.ask d r.owner _ c t).seq = _
    by_cases hc : c = d ∧ t = r.owner
    · rw [hc.1, hc.2, set2_self]
    · rw [set2_of_ne hc]
  | storeSeq hout hp => exact hl.storeSeq h hp
  | service hq => exact hl.setPass hq rfl id id rfl rfl rfl rfl rfl rfl
  | load hq => exact hl.setPass hq rfl id id rfl rfl rfl rfl rfl rfl
  | fence hq => exact hl.setPass hq rfl id id rfl rfl rfl rfl rfl rfl
  | fetch hq =>
    refine hl.setPass hq rfl id ?_ rfl rfl rfl rfl rfl rfl
    split <;> exact id
  | fetchLine hq => exact hl.setPass hq rfl id id rfl rfl rfl rfl rfl rfl
  | fetchOp hq => exact hl.setPass hq rfl id id rfl rfl rfl rfl rfl rfl
  | perform hq => exact hl.perform h hq
  | storeRan hq => exact hl.storeRan h hq
  | drained hq => exact hl.setPass hq rfl id id rfl rfl rfl rfl rfl rfl
  | answer hq hword => exact hl.setPass hq rfl id id rfl rfl rfl rfl rfl rfl
  | answered hq hword => exact hl.setPass hq rfl id id rfl rfl rfl rfl rfl rfl
  | idle hq => exact hl.setPass hq rfl id id rfl rfl rfl rfl rfl rfl
  | finish hq => exact hl.setPass hq rfl id id rfl rfl rfl rfl rfl rfl

theorem Run.logged (hr : Run lineCore Below (initial n) as s) (c t : Fin n) : Logged lineCore as s c t := by
  induction hr with
  | refl => exact logged_initial
  | step hru hs _ ih => exact logged_step (hru.inv inv_initial below_initial).1 hs ih

/-! ### Rendezvous -/

/-- In every run with fewer than 2^32 requests of a core to another unanswered: a wait about to return has been served,
since the request, by every peer in its set; each routed operation is performed once and in order by the core it is
routed to, before its wait returns; and a slot is written only with nothing standing in it and nobody reading it. -/
theorem doorbell_rendezvous (hr : Run lineCore Below (initial n) as s) :
    (∀ c t pre post cores routed, as = pre ++ .bump c t :: post → .bump c t ∉ post →
      s.prog c = .look [] cores routed → cores t = true → t ≠ c → Served c t post) ∧
    (∀ c t, as.filterMap (returns c t) <+: as.filterMap (performs c t) ∧
      as.filterMap (performs c t) <+: as.filterMap (asks lineCore c t) ∧ (as.filterMap (asks lineCore c t)).length ≤
      (as.filterMap (returns c t)).length + 1) ∧
    (∀ c r, s.prog c = .line r ∨ s.prog c = .op r ∨ s.prog c = .seq r →
      (s.ask c r.owner).seq = s.ran r.owner c ∧ (s.pass r.owner).mid c = none) := by
  obtain ⟨h, -⟩ := hr.inv inv_initial below_initial
  refine ⟨?_, fun c t => ?_, ?_⟩
  · rintro c t pre post cores routed rfl hno hp hcores hne
    exact served_before_return hr hno hp hcores hne
  · have hl := hr.logged c t
    have hlen : ((s.prog c).routedTo t).length ≤ 1 := by
      unfold Prog.routedTo
      split
      · split
        · exact le_rfl
        · exact Nat.zero_le _
      · exact Nat.zero_le _
    refine ⟨?_, ?_, ?_⟩
    · by_cases hd : Done s c t
      · rw [hl.done hd]
        exact List.prefix_append _ _
      · rw [hl.waiting hd]
    · by_cases hd : Done s c t
      · rw [hl.done hd, hl.asked]
      · rw [hl.waiting hd, hl.asked]
        exact List.prefix_append _ _
    · rw [hl.asked, List.length_append]
      exact Nat.add_le_add_left hlen _
  · intro c r hp
    have hnone : (s.prog c).posted = none := by
      rcases hp with hp | hp | hp
      · rw [hp]
        rfl
      · rw [hp]
        rfl
      · rw [hp]
        rfl
    have hran := (h c r.owner).quiet fun r' hr' => by
      rw [hnone] at hr'
      cases hr'
    exact ⟨hran.symm, (h c r.owner).unread hran⟩

/-! ### Two cores -/

instance (s : St n) : Decidable (Below s) := inferInstanceAs (Decidable (∀ c t, s.request c t < s.answer t c + word))

/-- The acts made one after another, with fewer than 2^32 requests unanswered behind each. -/
def St.follow (lineCore : Int → Int) : St n → List (Act n) → Option (St n)
  | s, [] => some s
  | s, a :: as =>
    match s.step lineCore a with
    | some v => if Below v then v.follow lineCore as else none
    | none => none

theorem run_of_follow (h : s.follow lineCore as = some s') : Run lineCore Below s as s' := by
  have hgo : ∀ {bs : List (Act n)} {u : St n}, Run lineCore Below s bs u → u.follow lineCore as = some s' →
      Run lineCore Below s (bs ++ as) s' := by
    clear h
    induction as with
    | nil =>
      intro bs u hru h
      cases h
      rw [List.append_nil]
      exact hru
    | cons a as ih =>
      intro bs u hru h
      unfold St.follow at h
      split at h
      · rename_i v hv
        split at h
        · rename_i hb
          have := ih (hru.step hv hb) h
          rwa [List.append_assoc] at this
        · cases h
      · cases h
  exact hgo .refl h

def core0 : Fin 2 := ⟨0, Nat.two_pos⟩

def core1 : Fin 2 := ⟨1, Nat.one_lt_two⟩

def only0 (t : Fin 2) : Bool := decide (t = core0)

/-- Core 0 is in a pass when core 1 sends, and has read only its own row. -/
def earlyPass : List (Act 2) := [.service core0, .load core0 core0, .send core1 only0]

/-- That pass reads the request and answers it, and the wait is over. -/
def earlyAnswer : List (Act 2) :=
  [.skip core1 core1, .own core1 false, .raise core1, .load core0 core1, .fence core0, .fetch core0 core0,
    .fetch core0 core1, .drained core0, .answer core0 core0, .answer core0 core1, .wait core1 only0,
    .look core1 core0, .settle core1 core0, .look core1 core1]

/-- `k` requests of core 1 to core 0, none of them answered. -/
def sent (k : Nat) : St 2 := { initial 2 with request := set2 (fun _ _ => 0) core1 core0 k }

theorem early_follows : ((initial 2).follow (fun _ => 0) (earlyPass ++ .bump core1 core0 :: earlyAnswer)).isSome =
    true := by decide +kernel

def sendActs : List (Act 2) := [.send core1 only0, .bump core1 core0, .skip core1 core1, .own core1 false, .raise core1]

/-- `k` sends. -/
def sends : Nat → List (Act 2)
  | 0 => []
  | k + 1 => sends k ++ sendActs

/-- Core 1 somewhere in its code, with `k` requests to core 0. -/
def sentAt (k : Nat) (p : Prog 2) : St 2 := { sent k with prog := update (fun _ => .idle) core1 p }

theorem sent_send (k : Nat) : (sent k).step (fun _ => 0)
    (.send core1 only0) = some (sentAt k (.bump [core0, core1] only0 none)) := rfl

theorem sent_bump (k : Nat) : (sentAt k (.bump [core0, core1] only0 none)).step (fun _ => 0) (.bump core1 core0) =
    some (sentAt (k + 1) (.bump [core1] only0 none)) := by
  simp [St.step, St.initiator, St.go, sentAt, sent, initial, only0, St.setProg, set2]

theorem sent_skip (k : Nat) : (sentAt k (.bump [core1] only0 none)).step (fun _ => 0) (.skip core1 core1) =
    some (sentAt k (.bump [] only0 none)) := by
  have hne : core1 ≠ core0 := by decide
  simp [St.step, St.initiator, St.go, sentAt, sent, initial, only0, St.setProg, hne]

theorem sent_own (k : Nat) : (sentAt k (.bump [] only0 none)).step (fun _ => 0)
    (.own core1 false) = some (sentAt k (.raise only0 none)) := by
  have hne : core1 ≠ core0 := by decide
  simp [St.step, St.initiator, St.go, sentAt, sent, initial, only0, St.setProg, hne]

theorem sent_raise (k : Nat) : (sentAt k (.raise only0 none)).step (fun _ => 0) (.raise core1) = some (sent k) := by
  simp [St.step, St.initiator, St.go, sentAt, sent, initial, St.setProg]

theorem sent_run (k : Nat) : Run (fun _ => 0) (fun _ => True) (initial 2) (sends k) (sent k) := by
  induction k with
  | zero =>
    have heq : sent 0 = initial 2 := by
      simp [sent, initial, set2]
    rw [heq]
    exact .refl
  | succ k ih =>
    have hrun := ((((ih.step (sent_send k) trivial).step (sent_bump k) trivial).step (sent_skip (k + 1)) trivial).step
      (sent_own (k + 1)) trivial).step (sent_raise (k + 1)) trivial
    simpa [sends, sendActs] using hrun

theorem sent_wait (k : Nat) (hk : k % word = 0) :
    Run (fun _ => 0) (fun _ => True) (initial 2) (sends k ++
      [.wait core1 only0, .look core1 core0, .settle core1 core0, .look core1 core1])
      (sentAt k (.look [] only0 none)) := by
  have hne : core1 ≠ core0 := by decide
  have hwait : (sent k).step (fun _ => 0) (.wait core1 only0) = some (sentAt k (.look [core0, core1] only0 none)) := rfl
  have hlook : (sentAt k (.look [core0, core1] only0 none)).step (fun _ => 0) (.look core1 core0) =
      some (sentAt k (.spin core0 k [core1] only0 none)) := by
    simp [St.step, St.initiator, St.go, sentAt, sent, initial, only0, St.setProg, set2, hne.symm]
  have hsettle : (sentAt k (.spin core0 k [core1] only0 none)).step (fun _ => 0) (.settle core1 core0) =
      some (sentAt k (.look [core1] only0 none)) := by
    simp [St.step, St.initiator, St.go, sentAt, sent, initial, St.setProg, hk]
  have hlast : (sentAt k (.look [core1] only0 none)).step (fun _ => 0) (.look core1 core1) =
      some (sentAt k (.look [] only0 none)) := by
    simp [St.step, St.initiator, St.go, sentAt, sent, initial, only0, St.setProg, hne]
  have hrun := (((sent_run k).step hwait trivial).step hlook trivial).step hsettle trivial
  simpa using hrun.step hlast trivial

theorem sends_passCore (k : Nat) : ∀ a ∈ sends k, a.passCore ≠ some core0 := by
  induction k with
  | zero =>
    intro a ha
    cases ha
  | succ k ih =>
    intro a ha
    rcases List.mem_append.mp ha with ha | ha
    · exact ih a ha
    · simp only [sendActs, List.mem_cons, List.not_mem_nil, or_false] at ha
      rcases ha with rfl | rfl | rfl | rfl | rfl <;> simp [Act.passCore]

/-- A wait returns on the answer of a pass that started before the send and is not over, and after 2^32 sends on no
pass at all. -/
theorem wait_returns_early :
    (∃ s, Run (fun _ => 0) Below (initial 2) (earlyPass ++ .bump core1 core0 :: earlyAnswer) s ∧
      s.prog core1 = .look [] only0 none ∧ only0 core0 = true ∧ .service core0 ∉ earlyAnswer ∧
      .finish core0 ∉ earlyPass ++ .bump core1 core0 :: earlyAnswer) ∧
    (∃ pre post s, Run (fun _ => 0) (fun _ => True) (initial 2) (pre ++ .bump core1 core0 :: post) s ∧
      s.prog core1 = .look [] only0 none ∧ ∀ a ∈ pre ++ .bump core1 core0 :: post, a.passCore ≠ some core0) := by
  refine ⟨⟨((initial 2).follow (fun _ => 0) (earlyPass ++ .bump core1 core0 :: earlyAnswer)).get early_follows,
    run_of_follow (Option.some_get early_follows).symm, rfl, rfl, ?_, ?_⟩, ?_⟩
  · simp [earlyAnswer]
  · simp [earlyPass, earlyAnswer]
  · have hword : word = word - 1 + 1 := (Nat.sub_add_cancel Nat.one_le_two_pow).symm
    have hsplit : sends word ++ [Act.wait core1 only0, .look core1 core0, .settle core1 core0, .look core1 core1] =
        (sends (word - 1) ++ [.send core1 only0]) ++ .bump core1 core0 ::
          [.skip core1 core1, .own core1 false, .raise core1, .wait core1 only0, .look core1 core0,
            .settle core1 core0, .look core1 core1] := by
      rw [hword]
      simp [sends, sendActs]
    have hrun := sent_wait word (Nat.mod_self word)
    rw [hsplit] at hrun
    refine ⟨_, _, _, hrun, by simp [sentAt], ?_⟩
    rw [← hsplit]
    intro a ha
    rcases List.mem_append.mp ha with ha | ha
    · exact sends_passCore word a ha
    · simp only [List.mem_cons, List.not_mem_nil, or_false] at ha
      rcases ha with rfl | rfl | rfl | rfl <;> simp [Act.passCore]

def maskLine : List (Act 2) :=
  [.lineOp core1 5 .mask false, .storeLine core1, .storeOp core1, .storeSeq core1, .bump core1 core0,
    .skip core1 core1, .own core1 false, .raise core1, .look core1 core0, .service core0, .load core0 core0,
    .load core0 core1, .fence core0, .fetch core0 core0, .fetch core0 core1,
    .fetchLine core0, .fetchOp core0, .perform core0 core1 5 .mask, .storeRan core0, .drained core0,
      .answer core0 core0, .answer core0 core1,
    .settle core1 core0, .look core1 core1, .waited core1 (some ⟨core0, 5, .mask⟩)]

theorem maskLine_follows : ((initial 2).follow (fun _ => 0) maskLine).isSome = true := by decide +kernel

theorem doorbell_rendezvous_maskLine :
    ∃ s, Run (fun _ => 0) Below (initial 2) maskLine s ∧ [(5, .mask)] <+: maskLine.filterMap (performs core1 core0) := by
  have hrun : Run (fun _ => 0) Below (initial 2) maskLine (((initial 2).follow (fun _ => 0) maskLine).get maskLine_follows) :=
    run_of_follow (Option.some_get maskLine_follows).symm
  exact ⟨_, hrun, ((doorbell_rendezvous hrun).2.1 core1 core0).1⟩

end Doorbell
end KickOS
