import KickOS.Lib.Count
import KickOS.Life.Frame

/-! The references of the memory domains.

`R d` is what the tasks hold of domain `d`, `P d` what the function under way still owes: the rest of a count is the
domains that borrow from `d` and the windows over its memory. A domain that borrows, and one with a window in its
space, is held by a task; so a release that brings a count to zero finds neither, and the walk along the donors ends
with its first domain. -/

namespace KickOS
namespace Life
namespace Pools
open Function (update update_apply update_comm update_eq_self update_idem update_of_ne update_self)

variable {g : Geometry} {s s' : Pools} {R P P' : Nat → Nat} {hole o : Option Nat} {d e : Nat}

/-- The domains that borrow from `d`. -/
def edges (g : Geometry) (s : Pools) (d : Nat) : Nat :=
  Lib.count g.domains fun e => decide ((s.doms e).borrowedFrom = some d)

/-- The memory windows over reservations of `d`. -/
def wins (s : Pools) (d : Nat) : Nat := s.windows.countP fun w => decide (w.donor = some d)

/-- One more for `d`. -/
def bump (P : Nat → Nat) : Option Nat → Nat → Nat
  | none => P
  | some d => fun x => P x + if x = d then 1 else 0

theorem bump_self : bump P (some d) d = P d + 1 := by
  simp [bump]

theorem bump_of_ne (h : e ≠ d) : bump P (some d) e = P e := by
  simp [bump, h]

theorem le_bump : P e ≤ bump P o e := by
  cases o with
  | none => exact le_refl _
  | some d => exact Nat.le_add_right _ _

/-- A domain that was claimed once. -/
structure Used (s : Pools) (d : Nat) : Prop where
  low : 2 ≤ d
  high : d < 2 + s.domFresh

structure Ledger (g : Geometry) (R P : Nat → Nat) (hole : Option Nat) (s : Pools) : Prop where
  exact : ∀ d, 2 ≤ d → (s.doms d).refcount = R d + P d + s.edges g d + s.wins d
  immortal : ∀ d, (s.doms d).immortal = decide (d < 2)
  quiet : ∀ d < 2, (s.doms d).borrowedFrom = none ∧ (s.doms d).space = false
  free : ∀ d, d ∈ s.domFree ↔ Used s d ∧ (s.doms d).refcount = 0 ∧ hole ≠ some d
  free_nodup : s.domFree.Nodup
  fresh_le : 2 + s.domFresh ≤ g.domains
  blank : ∀ d, 2 + s.domFresh ≤ d → R d = 0 ∧ P d = 0 ∧ s.doms d = {}
  hole_claimed : ∀ d, hole = some d → Used s d
  edge : ∀ e d, (s.doms e).borrowedFrom = some d → Used s d ∧ (1 ≤ R e ∨ hole = some e)
  win : ∀ w ∈ s.windows, 2 ≤ w.place ∧ 1 ≤ R w.place ∧ ∀ d, w.donor = some d → Used s d
  spaced : g.translating = true → ∀ d, 2 ≤ d → 1 ≤ R d → (s.doms d).space = true
  flat : g.translating = false → s.windows = [] ∧ ∀ d, (s.doms d).borrowedFrom = none

theorem Ledger.refcount_pos (h : Ledger g R P hole s) (hd : 2 ≤ d) (hR : 1 ≤ R d ∨ 1 ≤ P d) :
    (s.doms d).refcount ≠ 0 := by
  rw [h.exact d hd]
  omega

theorem Ledger.lender_pos (h : Ledger g R P hole s) (he : (s.doms e).borrowedFrom = some d) :
    (s.doms d).refcount ≠ 0 := by
  have hlow := (h.edge e d he).1.low
  have hedge : 0 < s.edges g d := by
    refine Lib.count_pos.2 ⟨e, ?_, by simp [he]⟩
    by_contra hge
    have hb := (h.blank e (by have := h.fresh_le; omega)).2.2
    rw [hb] at he
    cases he
  rw [h.exact d hlow]
  omega

theorem edges_congr (hd : ∀ e, (s'.doms e).borrowedFrom = (s.doms e).borrowedFrom) (d : Nat) :
    s'.edges g d = s.edges g d := Lib.count_congr fun e _ => by rw [hd]

theorem edges_set (s s' : Pools) (he : e < g.domains) (hs : s'.doms = update s.doms e (s'.doms e)) (d : Nat) :
    s'.edges g d + (if (s.doms e).borrowedFrom = some d then 1 else 0) =
      s.edges g d + (if (s'.doms e).borrowedFrom = some d then 1 else 0) := by
  have hcount := Lib.count_update s.doms (s'.doms e) (fun x => decide (x.borrowedFrom = some d)) he
  rw [← hs] at hcount
  have hbool : ∀ x : Domain, (decide (x.borrowedFrom = some d)).toNat = if x.borrowedFrom = some d then 1 else 0 := by
    intro x
    by_cases hx : x.borrowedFrom = some d <;> simp [hx]
  rw [hbool, hbool] at hcount
  exact hcount

theorem setDom_doms (f : Domain → Domain) (x : Nat) : (s.setDom d f).doms x = if x = d then f (s.doms d) else s.doms x :=
  update_apply _ _ _ _

theorem Ledger.reindex {P' : Nat → Nat} (h : Ledger g R P hole s) (hP : ∀ d, 2 ≤ d → P' d = P d) : Ledger g R P' hole s :=
  { h with
    exact := fun d hd => by rw [hP d hd]; exact h.exact d hd
    blank := fun d hd => by
      obtain ⟨b1, b2, b3⟩ := h.blank d hd
      exact ⟨b1, by rw [hP d (by omega)]; exact b2, b3⟩ }

theorem Ledger.congr (h : Ledger g R P none s) (hd : s'.doms = s.doms) (hl : s'.domFree = s.domFree)
    (hf : s'.domFresh = s.domFresh) (hw : s'.windows = s.windows) : Ledger g R P none s' := by
  have hedges : ∀ d, s'.edges g d = s.edges g d := edges_congr fun e => by rw [hd]
  have hwins : ∀ d, s'.wins d = s.wins d := fun d => by rw [wins, wins, hw]
  have hused : ∀ {d}, Used s d → Used s' d := fun k => ⟨k.low, by rw [hf]; exact k.high⟩
  have hused' : ∀ {d}, Used s' d → Used s d := fun k => ⟨k.low, by rw [← hf]; exact k.high⟩
  refine ⟨?_, ?_, ?_, ?_, by rw [hl]; exact h.free_nodup, by rw [hf]; exact h.fresh_le, ?_, ?_, ?_, ?_, ?_, ?_⟩
  · intro d hlow
    rw [hd, hedges, hwins]
    exact h.exact d hlow
  · rw [hd]
    exact h.immortal
  · rw [hd]
    exact h.quiet
  · intro d
    rw [hd, hl]
    exact (h.free d).trans ⟨fun k => ⟨hused k.1, k.2⟩, fun k => ⟨hused' k.1, k.2⟩⟩
  · rw [hd, hf]
    exact h.blank
  · exact fun d k => hused (h.hole_claimed d k)
  · intro e d he
    rw [hd] at he
    exact ⟨hused (h.edge e d he).1, (h.edge e d he).2⟩
  · intro w hm
    rw [hw] at hm
    obtain ⟨w1, w2, w3⟩ := h.win w hm
    exact ⟨w1, w2, fun d k => hused (w3 d k)⟩
  · rw [hd]
    exact h.spaced
  · rw [hd, hw]
    exact h.flat

theorem Ledger.write {hole' : Option Nat} (h : Ledger g R P hole s) (y : Domain)
    (hdoms : s'.doms = update s.doms d y) (hfresh : s'.domFresh = s.domFresh) (hwin : s'.windows = s.windows)
    (hd : Used s d) (hP : ∀ e, e ≠ d → P' e = P e) (hy : y.refcount = R d + P' d + s.edges g d + s.wins d)
    (him : y.immortal = false) (hb : y.borrowedFrom = (s.doms d).borrowedFrom)
    (hsp : g.translating = true → 1 ≤ R d → y.space = true)
    (hfree : ∀ e, e ∈ s'.domFree ↔ Used s e ∧ (s'.doms e).refcount = 0 ∧ hole' ≠ some e) (hnd : s'.domFree.Nodup)
    (hhole : ∀ e, hole' = some e → Used s e) (hedge : (s.doms d).borrowedFrom ≠ none → 1 ≤ R d ∨ hole' = some d)
    (hother : ∀ e, e ≠ d → hole = some e → hole' = some e) : Ledger g R P' hole' s' := by
  have hdom : ∀ e, s'.doms e = if e = d then y else s.doms e := fun e => by rw [hdoms, update_apply]
  have hborrow : ∀ e, (s'.doms e).borrowedFrom = (s.doms e).borrowedFrom := by
    intro e
    rw [hdom]
    split_ifs with hed
    · rw [hb, hed]
    · rfl
  have hedges := edges_congr (g := g) hborrow
  have hwins : ∀ e, s'.wins e = s.wins e := fun e => by rw [wins, wins, hwin]
  have hused : ∀ {e}, Used s e → Used s' e := fun hu => ⟨hu.low, by rw [hfresh]; exact hu.high⟩
  have hused' : ∀ {e}, Used s' e → Used s e := fun hu => ⟨hu.low, by rw [← hfresh]; exact hu.high⟩
  refine ⟨?_, ?_, ?_, ?_, hnd, by rw [hfresh]; exact h.fresh_le, ?_, fun e he => hused (hhole e he), ?_, ?_, ?_, ?_⟩
  · intro e he
    rw [hedges, hwins, hdom]
    split_ifs with hed
    · rw [hed]
      exact hy
    · rw [hP e hed]
      exact h.exact e he
  · intro e
    rw [hdom]
    split_ifs with hed
    · rw [him, hed, decide_eq_false (by have := hd.low; omega)]
    · exact h.immortal e
  · intro e he
    rw [hdom, if_neg (by have := hd.low; omega)]
    exact h.quiet e he
  · intro e
    rw [hfree e]
    exact ⟨fun k => ⟨hused k.1, k.2⟩, fun k => ⟨hused' k.1, k.2⟩⟩
  · intro e he
    rw [hfresh] at he
    have hed : e ≠ d := by
      have := hd.high
      omega
    rw [hP e hed, hdom, if_neg hed]
    exact h.blank e he
  · intro e o he
    rw [hborrow] at he
    obtain ⟨e1, e2⟩ := h.edge e o he
    refine ⟨hused e1, ?_⟩
    by_cases hed : e = d
    · subst hed
      exact hedge (by rw [he]; exact Option.some_ne_none o)
    · exact e2.imp_right (hother e hed)
  · intro w hw
    rw [hwin] at hw
    obtain ⟨w1, w2, w3⟩ := h.win w hw
    exact ⟨w1, w2, fun o ho => hused (w3 o ho)⟩
  · intro ht e he hR
    rw [hdom]
    split_ifs with hed
    · exact hsp ht (hed ▸ hR)
    · exact h.spaced ht e he hR
  · intro ht
    exact ⟨by rw [hwin]; exact (h.flat ht).1, fun e => by rw [hborrow]; exact (h.flat ht).2 e⟩

theorem Ledger.not_immortal (h : Ledger g R P hole s) (hd : Used s d) : (s.doms d).immortal = false := by
  rw [h.immortal]
  exact decide_eq_false (by have := hd.low; omega)

theorem Ledger.domainRef (h : Ledger g R P hole s) (hc : d < 2 + s.domFresh)
    (hp : 2 ≤ d → (s.doms d).refcount ≠ 0 ∨ hole = some d)
    (hfit : 2 ≤ d → R d + P d + s.edges g d + s.wins d < 65535) :
    Ledger g R (bump P (some d)) hole (s.domainRef (some d)) := by
  by_cases hlow : d < 2
  · rw [Pools.domainRef, h.immortal, if_pos (decide_eq_true hlow)]
    exact h.reindex fun e he => bump_of_ne (by omega)
  have hd : Used s d := ⟨by omega, hc⟩
  have hx := h.exact d hd.low
  have hone := hfit hd.low
  rw [Pools.domainRef, if_neg (by rw [h.not_immortal hd]; exact Bool.false_ne_true)]
  refine h.write _ rfl rfl rfl hd (fun e he => bump_of_ne he) ?_ (h.not_immortal hd) rfl
    (fun ht => h.spaced ht d hd.low) ?_ h.free_nodup h.hole_claimed ?_ fun e _ he => he
  · show ((s.doms d).refcount + 1) % 65536 = _
    rw [bump_self]
    omega
  · intro e
    refine (h.free e).trans ?_
    rw [setDom_doms]
    by_cases hed : e = d
    · subst hed
      rw [if_pos rfl]
      constructor
      · rintro ⟨-, h0, hne⟩
        rcases hp hd.low with hp | hp
        · exact absurd h0 hp
        · exact absurd hp hne
      · rintro ⟨-, h0, -⟩
        have h0' : ((s.doms e).refcount + 1) % 65536 = 0 := h0
        omega
    · rw [if_neg hed]
  · intro hb
    obtain ⟨o, ho⟩ := Option.ne_none_iff_exists'.1 hb
    exact (h.edge d o ho).2

theorem Ledger.settle (h : Ledger g R (bump P (some d)) hole s) (hs : g.translating = true → 2 ≤ d → (s.doms d).space = true)
    (hh : hole = none ∨ hole = some d) : Ledger g (bump R (some d)) P none s := by
  refine ⟨?_, h.immortal, h.quiet, ?_, h.free_nodup, h.fresh_le, ?_,
    fun e he => absurd he (Option.some_ne_none e).symm, ?_, ?_, ?_, h.flat⟩
  · intro e he
    rw [h.exact e he]
    by_cases hed : e = d
    · subst hed
      rw [bump_self, bump_self]
      omega
    · rw [bump_of_ne hed, bump_of_ne hed]
  · intro e
    rw [h.free e]
    rcases hh with hh | hh
    · rw [hh]
    · rw [hh]
      refine ⟨fun k => ⟨k.1, k.2.1, (Option.some_ne_none e).symm⟩, fun k => ⟨k.1, k.2.1, ?_⟩⟩
      intro he
      cases he
      have := h.exact d k.1.low
      rw [bump_self] at this
      have := k.2.1
      omega
  · intro e he
    obtain ⟨b1, b2, b3⟩ := h.blank e he
    by_cases hed : e = d
    · subst hed
      rw [bump_self] at b2
      omega
    · rw [bump_of_ne hed] at b2 ⊢
      exact ⟨b1, b2, b3⟩
  · intro e o he
    obtain ⟨e1, e2⟩ := h.edge e o he
    refine ⟨e1, .inl ?_⟩
    rcases e2 with e2 | e2
    · exact le_trans e2 le_bump
    · rcases hh with hh | hh
      · rw [hh] at e2
        cases e2
      · rw [hh] at e2
        cases e2
        rw [bump_self]
        omega
  · intro w hw
    obtain ⟨w1, w2, w3⟩ := h.win w hw
    exact ⟨w1, le_trans w2 le_bump, w3⟩
  · intro ht e he hR
    by_cases hed : e = d
    · exact hed ▸ hs ht (hed ▸ he)
    · rw [bump_of_ne hed] at hR
      exact h.spaced ht e he hR

/-- A reference a task gives up, of a domain that has no borrowed memory and no window then, or is still held. -/
theorem Ledger.unsettle (h : Ledger g (bump R (some d)) P hole s)
    (hd : 1 ≤ R d ∨ ((s.doms d).borrowedFrom = none ∧ ∀ w ∈ s.windows, w.place ≠ d)) :
    Ledger g R (bump P (some d)) hole s := by
  refine ⟨?_, h.immortal, h.quiet, h.free, h.free_nodup, h.fresh_le, ?_, h.hole_claimed, ?_, ?_, ?_, h.flat⟩
  · intro e he
    rw [h.exact e he]
    by_cases hed : e = d
    · subst hed
      rw [bump_self, bump_self]
      omega
    · rw [bump_of_ne hed, bump_of_ne hed]
  · intro e he
    obtain ⟨b1, b2, b3⟩ := h.blank e he
    by_cases hed : e = d
    · subst hed
      rw [bump_self] at b1
      omega
    · rw [bump_of_ne hed] at b1 ⊢
      exact ⟨b1, b2, b3⟩
  · intro e o he
    obtain ⟨e1, e2⟩ := h.edge e o he
    refine ⟨e1, ?_⟩
    by_cases hed : e = d
    · subst hed
      rcases hd with hd | ⟨hd, -⟩
      · exact .inl hd
      · rw [hd] at he
        cases he
    · rw [bump_of_ne hed] at e2
      exact e2
  · intro w hw
    obtain ⟨w1, w2, w3⟩ := h.win w hw
    refine ⟨w1, ?_, w3⟩
    by_cases hed : w.place = d
    · rcases hd with hd | ⟨-, hd⟩
      · exact hed ▸ hd
      · exact absurd hed (hd w hw)
    · rwa [bump_of_ne hed] at w2
  · exact fun ht e he hR => h.spaced ht e he (le_trans hR le_bump)

/-- The count of a domain goes down by one. -/
def lowered (s : Pools) (d : Nat) : Pools := s.setDom d fun x => { x with refcount := x.refcount - 1 }

theorem releaseLoop_step (h : (s.doms d).immortal = false) (hb : (s.doms d).borrowedFrom = none) (fuel : Nat) :
    releaseLoop g (fuel + 1) s (some d) =
      if ((s.lowered d).doms d).refcount ≠ 0 then s.lowered d
      else if g.translating then (((s.lowered d).domFreePut d).dropSpace d).2 else (s.lowered d).domFreePut d := by
  have hdrop : (((s.lowered d).domFreePut d).dropSpace d).1 = none := by
    have hput : ∀ u : Pools, ((u.domFreePut d).doms d).borrowedFrom = (u.doms d).borrowedFrom := by
      intro u
      rw [domFreePut]
      split_ifs <;> rfl
    show (((s.lowered d).domFreePut d).doms d).borrowedFrom = none
    rw [hput, lowered, setDom_doms, if_pos rfl]
    exact hb
  have hend : ∀ n u, releaseLoop g n u none = u := fun n u => by cases n <;> rfl
  rw [releaseLoop, h]
  simp only [Bool.false_eq_true, if_false]
  change (if ((s.lowered d).doms d).refcount ≠ 0 then s.lowered d
    else if g.translating then releaseLoop g fuel (((s.lowered d).domFreePut d).dropSpace d).2
      (((s.lowered d).domFreePut d).dropSpace d).1 else (s.lowered d).domFreePut d) = _
  rw [hdrop, hend]

theorem Ledger.no_window (h : Ledger g R P hole s) (h0 : R d = 0) :
    s.windows.filter (fun w => decide (w.place ≠ d)) = s.windows := by
  refine List.filter_eq_self.2 fun w hw => decide_eq_true ?_
  rintro rfl
  have := (h.win w hw).2.1
  omega

theorem Ledger.dropSpace (h : Ledger g R P hole s) (hd : Used s d) (h0 : R d = 0) (hb : (s.doms d).borrowedFrom = none)  :
    Ledger g R P hole (s.dropSpace d).2 := by
  have hwin := h.no_window h0
  refine h.write { s.doms d with borrowedFrom := none, space := false } rfl rfl ?_ hd (fun _ _ => rfl)
    (h.exact d hd.low) (h.not_immortal hd) hb.symm (fun _ hR => by omega) ?_ h.free_nodup h.hole_claimed
    (fun hne => absurd hb hne) fun e _ he => he
  · exact hwin
  · intro e
    refine (h.free e).trans ?_
    have hdom : ((s.dropSpace d).2.doms e).refcount = (s.doms e).refcount := by
      show ((s.setDom d fun x => { x with borrowedFrom := none, space := false }).doms e).refcount = _
      rw [setDom_doms]
      split_ifs with hed
      · rw [hed]
      · rfl
    rw [hdom]

/-- The windows stay, and so do the domains that were claimed. -/
structure WinKept (s s' : Pools) : Prop where
  windows : s'.windows = s.windows
  fresh : s'.domFresh = s.domFresh

theorem WinKept.trans {u : Pools} (h : WinKept s u) (h' : WinKept u s') : WinKept s s' :=
  ⟨h'.windows.trans h.windows, h'.fresh.trans h.fresh⟩

theorem Ledger.domainRelease (h : Ledger g R (bump P (some d)) hole s) (hh : hole ≠ some d) :
    Ledger g R P hole (s.domainRelease g (some d)) ∧ WinKept s (s.domainRelease g (some d)) := by
  by_cases hlow : d < 2
  · rw [Pools.domainRelease, releaseLoop, h.immortal, if_pos (decide_eq_true hlow)]
    exact ⟨h.reindex fun e he => (bump_of_ne (by omega)).symm, rfl, rfl⟩
  have hpend : bump P (some d) d = P d + 1 := bump_self
  have hd : Used s d := by
    refine ⟨by omega, ?_⟩
    by_contra hge
    have := (h.blank d (by omega)).2.1
    omega
  have hx := h.exact d hd.low
  have hP : ∀ e, e ≠ d → P e = bump P (some d) e := fun e he => (bump_of_ne he).symm
  have hlowered : ∀ e, (s.lowered d).doms e = if e = d then { s.doms d with refcount := (s.doms d).refcount - 1 }
      else s.doms e := setDom_doms _
  by_cases hzero : (s.doms d).refcount - 1 = 0
  · -- nobody else holds it: no borrowed memory, no window in its space
    have hb : (s.doms d).borrowedFrom = none := by
      rw [Option.eq_none_iff_forall_ne_some]
      intro o ho
      rcases (h.edge d o ho).2 with hR | hR
      · omega
      · exact hh hR
    have hnotin : d ∉ s.domFree := fun hm => by
      have := ((h.free d).1 hm).2.1
      omega
    have hput : (s.lowered d).domFreePut d = { s.lowered d with domFree := d :: s.domFree } := by
      rw [domFreePut, if_neg]
      · rfl
      · rw [hlowered, if_pos rfl]
        rintro (hi | hi | hi)
        · exact absurd ((h.not_immortal hd).symm.trans hi) Bool.false_ne_true
        · exact hi hzero
        · exact hnotin hi
    have hL : Ledger g R P hole { s.lowered d with domFree := d :: s.domFree } := by
      refine h.write { s.doms d with refcount := (s.doms d).refcount - 1 } rfl rfl rfl hd hP ?_ (h.not_immortal hd) rfl
        (fun ht => h.spaced ht d hd.low) ?_ (List.nodup_cons.2 ⟨hnotin, h.free_nodup⟩) h.hole_claimed
        (fun hne => absurd hb hne) fun e _ he => he
      · show (s.doms d).refcount - 1 = _
        omega
      · intro e
        show e ∈ d :: s.domFree ↔ Used s e ∧ ((s.lowered d).doms e).refcount = 0 ∧ hole ≠ some e
        rw [List.mem_cons, h.free e, hlowered]
        by_cases hed : e = d
        · subst hed
          rw [if_pos rfl]
          exact ⟨fun _ => ⟨hd, hzero, hh⟩, fun _ => .inl rfl⟩
        · rw [if_neg hed]
          exact ⟨fun k => k.resolve_left hed, .inr⟩
    rw [Pools.domainRelease, releaseLoop_step (h.not_immortal hd) hb, if_neg, hput]
    · split_ifs
      · refine ⟨hL.dropSpace ⟨hd.low, hd.high⟩ (by omega) ?_, hL.no_window (by omega), rfl⟩
        show ((s.lowered d).doms d).borrowedFrom = none
        rw [hlowered, if_pos rfl]
        exact hb
      · exact ⟨hL, rfl, rfl⟩
    · rw [hlowered, if_pos rfl]
      exact not_not.2 hzero
  · have heq : s.domainRelease g (some d) = s.lowered d := by
      rw [Pools.domainRelease, releaseLoop, h.not_immortal hd]
      simp only [Bool.false_eq_true, if_false]
      refine if_pos ?_
      rw [setDom_doms, if_pos rfl]
      exact hzero
    rw [heq]
    refine ⟨?_, rfl, rfl⟩
    refine h.write { s.doms d with refcount := (s.doms d).refcount - 1 } rfl rfl rfl hd hP ?_ (h.not_immortal hd) rfl
      (fun ht => h.spaced ht d hd.low) ?_ h.free_nodup h.hole_claimed ?_ fun e _ he => he
    · show (s.doms d).refcount - 1 = _
      omega
    · intro e
      refine (h.free e).trans ?_
      rw [hlowered]
      by_cases hed : e = d
      · subst hed
        rw [if_pos rfl]
        exact ⟨fun k => absurd k.2.1 (by omega), fun k => absurd k.2.1 hzero⟩
      · rw [if_neg hed]
    · intro hb
      obtain ⟨o, ho⟩ := Option.ne_none_iff_exists'.1 hb
      exact (h.edge d o ho).2

theorem Ledger.freePut (h : Ledger g R P (some d) s) (h0 : (s.doms d).refcount = 0) (hb : (s.doms d).borrowedFrom = none) :
    Ledger g R P none (s.domFreePut d) := by
  have hd := h.hole_claimed d rfl
  have hnotin : d ∉ s.domFree := fun hm => ((h.free d).1 hm).2.2 rfl
  rw [domFreePut, if_neg]
  · refine h.write (s.doms d) (update_eq_self d s.doms).symm rfl rfl hd (fun _ _ => rfl) (h.exact d hd.low)
      (h.not_immortal hd) rfl (fun ht => h.spaced ht d hd.low) ?_ (List.nodup_cons.2 ⟨hnotin, h.free_nodup⟩)
      (fun e he => absurd he (Option.some_ne_none e).symm) (fun hne => absurd hb hne) ?_
    · intro e
      show e ∈ d :: s.domFree ↔ Used s e ∧ (s.doms e).refcount = 0 ∧ none ≠ some e
      rw [List.mem_cons, h.free e]
      by_cases hed : e = d
      · subst hed
        exact ⟨fun _ => ⟨hd, h0, (Option.some_ne_none e).symm⟩, fun _ => .inl rfl⟩
      · refine ⟨fun k => ?_, fun k => .inr ⟨k.1, k.2.1, fun he => hed (Option.some.inj he).symm⟩⟩
        have k' := k.resolve_left hed
        exact ⟨k'.1, k'.2.1, (Option.some_ne_none e).symm⟩
    · exact fun e hed he => absurd (Option.some.inj he).symm hed
  · rintro (hi | hi | hi)
    · exact absurd ((h.not_immortal hd).symm.trans hi) Bool.false_ne_true
    · exact hi h0
    · exact hnotin hi

/-- What a claim says of the domain it hands out, and of the rest. -/
structure Handed (g : Geometry) (s : Pools) (d : Nat) (s' : Pools) : Prop where
  zero : (s'.doms d).refcount = 0
  edge : (s'.doms d).borrowedFrom = none
  space : (s'.doms d).space = g.translating
  others : ∀ e, (s.doms e).refcount ≠ 0 ∨ e < 2 → e ≠ d ∧ s'.doms e = s.doms e
  windows : s'.windows = s.windows
  fresh : s.domFresh ≤ s'.domFresh

theorem domFreeSlot_nil (hf : s.domFree = []) : s.domFreeSlot g =
    if g.domains ≤ 2 + s.domFresh then (none, s) else (some (2 + s.domFresh), { s with domFresh := s.domFresh + 1 }) := by
  unfold Pools.domFreeSlot
  split
  · rename_i heq
    rw [hf] at heq
    cases heq
  · rfl

theorem Ledger.domFreeSlot (h : Ledger g R P none s) (hs : s.domFreeSlot g = (some d, s')) :
    Ledger g R P (some d) s' ∧ (s'.doms d).refcount = 0 ∧ s'.doms = s.doms ∧ s'.windows = s.windows ∧
      s.domFresh ≤ s'.domFresh := by
  cases hf : s.domFree with
  | cons e rest =>
    unfold Pools.domFreeSlot at hs
    rw [hf] at hs
    cases hs
    have hmem := (h.free d).1 (by rw [hf]; exact List.mem_cons_self)
    have hnd := h.free_nodup
    rw [hf, List.nodup_cons] at hnd
    refine ⟨?_, hmem.2.1, rfl, rfl, le_refl _⟩
    refine h.write (s.doms d) (update_eq_self d s.doms).symm rfl rfl hmem.1 (fun _ _ => rfl)
      (h.exact d hmem.1.low) (h.not_immortal hmem.1) rfl (fun ht => h.spaced ht d hmem.1.low) ?_ hnd.2 ?_ (fun _ => .inr rfl)
      fun e _ he => absurd he (Option.some_ne_none e).symm
    · intro e
      show e ∈ rest ↔ Used s e ∧ (s.doms e).refcount = 0 ∧ some d ≠ some e
      have he := h.free e
      rw [hf, List.mem_cons] at he
      by_cases hed : e = d
      · subst hed
        exact ⟨fun hm => absurd hm hnd.1, fun k => absurd rfl k.2.2⟩
      · rw [or_iff_right hed] at he
        rw [he]
        exact ⟨fun k => ⟨k.1, k.2.1, fun hk => hed (Option.some.inj hk).symm⟩,
          fun k => ⟨k.1, k.2.1, (Option.some_ne_none e).symm⟩⟩
    · intro e he
      cases he
      exact hmem.1
  | nil =>
    rw [domFreeSlot_nil hf] at hs
    split_ifs at hs with hfull <;> cases hs
    obtain ⟨b1, b2, b3⟩ := h.blank (2 + s.domFresh) (le_refl _)
    have hused : ∀ {e}, Used s e → Used { s with domFresh := s.domFresh + 1 } e := fun hu =>
      ⟨hu.low, lt_trans hu.high (by show 2 + s.domFresh < 2 + (s.domFresh + 1); omega)⟩
    refine ⟨?_, ?_, rfl, rfl, Nat.le_succ _⟩
    · refine ⟨h.exact, h.immortal, h.quiet, ?_, by rw [hf]; exact List.nodup_nil, ?_, ?_, ?_, ?_, ?_, h.spaced, h.flat⟩
      · intro e
        have he := h.free e
        refine he.trans ⟨fun k => ⟨hused k.1, k.2.1, ?_⟩, fun k => ⟨⟨k.1.low, ?_⟩, k.2.1, (Option.some_ne_none e).symm⟩⟩
        · intro hk
          have hk' : 2 + s.domFresh = e := Option.some.inj hk
          have := k.1.high
          omega
        · have h1 : e < 2 + (s.domFresh + 1) := k.1.high
          have h2 : 2 + s.domFresh ≠ e := fun hk => k.2.2 (congrArg some hk)
          omega
      · show 2 + (s.domFresh + 1) ≤ g.domains
        omega
      · intro e he
        have he' : 2 + (s.domFresh + 1) ≤ e := he
        exact h.blank e (by omega)
      · intro e he
        have he' : 2 + s.domFresh = e := Option.some.inj he
        exact ⟨by omega, by show e < 2 + (s.domFresh + 1); omega⟩
      · intro e o he
        obtain ⟨e1, e2⟩ := h.edge e o he
        exact ⟨hused e1, e2.imp_right fun hn => absurd hn (Option.some_ne_none e).symm⟩
      · intro w hw
        obtain ⟨w1, w2, w3⟩ := h.win w hw
        exact ⟨w1, w2, fun o ho => hused (w3 o ho)⟩
    · show (s.doms (2 + s.domFresh)).refcount = 0
      rw [b3]

theorem Ledger.hole_zero (h : Ledger g R P (some d) s) (h0 : (s.doms d).refcount = 0) :
    R d = 0 ∧ P d = 0 ∧ s.edges g d = 0 ∧ s.wins d = 0 := by
  have := h.exact d (h.hole_claimed d rfl).low
  omega

theorem Ledger.reset (h : Ledger g R P (some d) s) (h0 : (s.doms d).refcount = 0) (hb : (s.doms d).borrowedFrom = none)
    (y : Domain) (hy : y.refcount = 0 ∧ y.immortal = false ∧ y.borrowedFrom = none) :
    Ledger g R P (some d) (s.setDom d fun _ => y) := by
  have hd := h.hole_claimed d rfl
  obtain ⟨z1, z2, z3, z4⟩ := h.hole_zero h0
  refine h.write y rfl rfl rfl hd (fun _ _ => rfl) (by rw [hy.1, z1, z2, z3, z4]) hy.2.1 (hy.2.2.trans hb.symm)
    (fun _ hR => by omega) ?_ h.free_nodup h.hole_claimed (fun _ => .inr rfl) fun e _ he => he
  intro e
  refine (h.free e).trans ?_
  rw [setDom_doms]
  split_ifs with hed
  · subst hed
    rw [h0, hy.1]
  · rfl

theorem Ledger.claimSlot (h : Ledger g R P none s) (a : DomainAsk) :
    (∀ s', s.claimSlot g a = (none, s') → Ledger g R P none s' ∧ s.domFresh ≤ s'.domFresh ∧ s'.windows = s.windows) ∧
    (∀ d s', s.claimSlot g a = (some d, s') → Ledger g R P (some d) s' ∧ Handed g s d s') := by
  unfold Pools.claimSlot
  cases hf : s.domFreeSlot g with
  | mk o u =>
    cases o with
    | none =>
      refine ⟨fun s' hs => ?_, fun d s' hs => by cases hs⟩
      cases hs
      cases hl : s.domFree with
      | cons e rest =>
        unfold Pools.domFreeSlot at hf
        rw [hl] at hf
        cases hf
      | nil =>
        rw [domFreeSlot_nil hl] at hf
        split_ifs at hf <;> cases hf
        exact ⟨h, le_refl _, rfl⟩
    | some d =>
      obtain ⟨hu, u0, udoms, uwin, ufresh⟩ := h.domFreeSlot hf
      have hd := hu.hole_claimed d rfl
      have hR := (hu.hole_zero u0).1
      have hb : (u.doms d).borrowedFrom = none := by
        rw [Option.eq_none_iff_forall_ne_some]
        intro o ho
        rw [udoms] at ho
        rcases (h.edge d o ho).2 with hk | hk
        · omega
        · cases hk
      have hne : ∀ e, (s.doms e).refcount ≠ 0 ∨ e < 2 → e ≠ d := by
        rintro e he rfl
        rw [udoms] at u0
        have := hd.low
        omega
      -- the record is blank, whatever the last occupant left
      have hclean : ∀ sp : Bool, Ledger g R P (some d) (u.setDom d fun _ => { space := sp }) ∧
          Handed g s d (u.setDom d fun _ => { space := g.translating }) := by
        intro sp
        refine ⟨hu.reset u0 hb _ ⟨rfl, rfl, rfl⟩, ?_, ?_, ?_, ?_, uwin, ufresh⟩
        · rw [setDom_doms, if_pos rfl]
        · rw [setDom_doms, if_pos rfl]
        · rw [setDom_doms, if_pos rfl]
        · intro e he
          refine ⟨hne e he, ?_⟩
          rw [setDom_doms, if_neg (hne e he), udoms]
      have hwin := hu.no_window hR
      have hstale : ((u.dropSpace d).2.setDom d fun _ => {}).domainRelease g (u.dropSpace d).1 =
          u.setDom d fun _ => {} := by
        have hnone : (u.dropSpace d).1 = none := hb
        rw [hnone, Pools.domainRelease, releaseLoop]
        simp only [Pools.dropSpace, setDom, update_idem, hwin]
      dsimp only
      rw [hstale]
      have hset : ((u.setDom d fun _ => {}).setDom d fun x => { x with space := true }) =
          u.setDom d fun _ => { space := true } := by
        simp only [setDom, update_idem, update_self]
      rw [hset]
      split_ifs with ht hr hseed
      · refine ⟨fun s' hs => ?_, fun e s' hs => by cases hs⟩
        cases hs
        refine ⟨((hclean false).1.freePut ?_ ?_), ?_, ?_⟩
        · rw [setDom_doms, if_pos rfl]
        · rw [setDom_doms, if_pos rfl]
        · rw [domFreePut]
          split_ifs <;> exact ufresh
        · rw [domFreePut]
          split_ifs <;> exact uwin
      · refine ⟨fun s' hs => (by cases hs), fun e s' hs => ?_⟩
        cases hs
        have hk := hclean true
        rw [ht] at hk
        exact hk
      · refine ⟨fun s' hs => ?_, fun e s' hs => by cases hs⟩
        cases hs
        have hdrop := (hclean true).1.dropSpace ⟨hd.low, hd.high⟩ hR (by rw [setDom_doms, if_pos rfl])
        have hdom := fun e => setDom_doms (s := u.setDom d fun _ => { space := true }) (d := d)
          (fun x => { x with borrowedFrom := none, space := false }) e
        refine ⟨hdrop.freePut ?_ ?_, ?_, ?_⟩
        · show (((u.setDom d fun _ => { space := true }).setDom d
            fun x => { x with borrowedFrom := none, space := false }).doms d).refcount = 0
          rw [hdom, if_pos rfl, setDom_doms, if_pos rfl]
        · show (((u.setDom d fun _ => { space := true }).setDom d
            fun x => { x with borrowedFrom := none, space := false }).doms d).borrowedFrom = none
          rw [hdom, if_pos rfl]
        · rw [domFreePut]
          split_ifs <;> exact ufresh
        · rw [domFreePut]
          split_ifs <;> exact hwin.trans uwin
      · refine ⟨fun s' hs => (by cases hs), fun e s' hs => ?_⟩
        cases hs
        have hk := hclean false
        rw [Bool.not_eq_true] at ht
        rw [ht] at hk
        exact hk

theorem Ledger.giveUp (h : Ledger g R P (some d) s) (h0 : (s.doms d).refcount = 0) (hb : (s.doms d).borrowedFrom = none) :
    Ledger g R P none (s.domainRelease g (some d)) ∧ WinKept s (s.domainRelease g (some d)) := by
  have hd := h.hole_claimed d rfl
  have hsame : s.lowered d = s := by
    have hx : ({ s.doms d with refcount := (s.doms d).refcount - 1 } : Domain) = s.doms d := by
      rw [show (s.doms d).refcount - 1 = (s.doms d).refcount by omega]
    rw [lowered, setDom, hx, update_eq_self]
  have hput := h.freePut h0 hb
  have hR := (h.hole_zero h0).1
  rw [Pools.domainRelease, releaseLoop_step (h.not_immortal hd) hb, hsame, if_neg (not_not.2 h0)]
  have hdoms : (s.domFreePut d).doms = s.doms ∧ WinKept s (s.domFreePut d) := by
    rw [domFreePut]
    split_ifs <;> exact ⟨rfl, rfl, rfl⟩
  split_ifs
  · refine ⟨hput.dropSpace ⟨hd.low, ?_⟩ hR ?_, hdoms.2.trans ⟨hput.no_window hR, rfl⟩⟩
    · rw [hdoms.2.fresh]
      exact hd.high
    · rw [hdoms.1]
      exact hb
  · exact ⟨hput, hdoms.2⟩

theorem Ledger.lend (h : Ledger g R (bump P (some e)) (some d) s) (ht : g.translating = true)
    (hb : (s.doms d).borrowedFrom = none) (he : Used s e) (hne : e ≠ d) :
    Ledger g R P (some d) (s.setDom d fun x => { x with borrowedFrom := some e }) := by
  have hd := h.hole_claimed d rfl
  have hlt : d < g.domains := lt_of_lt_of_le hd.high h.fresh_le
  have hdom := fun x => setDom_doms (s := s) (d := d) (fun y => { y with borrowedFrom := some e }) x
  have hedge : ∀ x, (s.setDom d fun y => { y with borrowedFrom := some e }).edges g x =
      s.edges g x + if x = e then 1 else 0 := by
    intro x
    have hset := edges_set (g := g) s (s.setDom d fun y => { y with borrowedFrom := some e }) hlt
      (by rw [hdom, if_pos rfl]; rfl) x
    rw [hb, if_neg (Option.some_ne_none x).symm, hdom, if_pos rfl] at hset
    rw [Nat.add_zero] at hset
    rw [hset]
    by_cases hx : x = e
    · subst hx
      simp
    · rw [if_neg hx, if_neg fun hk => hx (Option.some.inj hk).symm]
  have hcount : ∀ x, ((s.setDom d fun y => { y with borrowedFrom := some e }).doms x).refcount = (s.doms x).refcount := by
    intro x
    rw [hdom]
    split_ifs with hxd
    · rw [hxd]
    · rfl
  refine ⟨?_, ?_, ?_, ?_, h.free_nodup, h.fresh_le, ?_, fun x hx => ⟨(h.hole_claimed x hx).low, (h.hole_claimed x hx).high⟩,
    ?_, ?_, ?_, ?_⟩
  · intro x hx
    rw [hcount, hedge, h.exact x hx]
    show _ = R x + P x + (s.edges g x + _) + s.wins x
    simp only [bump]
    omega
  · intro x
    rw [hdom]
    split_ifs with hxd
    · exact hxd ▸ h.immortal x
    · exact h.immortal x
  · intro x hx
    rw [hdom, if_neg (by have := hd.low; omega)]
    exact h.quiet x hx
  · intro x
    rw [hcount]
    exact (h.free x).trans ⟨fun k => ⟨⟨k.1.low, k.1.high⟩, k.2⟩, fun k => ⟨⟨k.1.low, k.1.high⟩, k.2⟩⟩
  · intro x hx
    have hx' : 2 + s.domFresh ≤ x := hx
    obtain ⟨b1, b2, b3⟩ := h.blank x hx'
    rw [hdom, if_neg (by have := hd.high; omega)]
    refine ⟨b1, ?_, b3⟩
    rw [bump_of_ne (by have := he.high; omega)] at b2
    exact b2
  · intro x y hx
    rw [hdom] at hx
    split_ifs at hx with hxd
    · cases hx
      exact ⟨⟨he.low, he.high⟩, .inr (by rw [hxd])⟩
    · obtain ⟨e1, e2⟩ := h.edge x y hx
      exact ⟨⟨e1.low, e1.high⟩, e2⟩
  · intro w hw
    obtain ⟨w1, w2, w3⟩ := h.win w hw
    exact ⟨w1, w2, fun o ho => ⟨(w3 o ho).low, (w3 o ho).high⟩⟩
  · intro _ x hx hR
    rw [hdom]
    split_ifs with hxd
    · exact hxd ▸ h.spaced ht x hx hR
    · exact h.spaced ht x hx hR
  · intro hf
    rw [ht] at hf
    cases hf

theorem Ledger.owner (h : Ledger g R P hole s) (he : 1 ≤ R e) (hs : (s.doms e).space = true) (passed : Bool) :
    Used s (s.owner e passed) ∧ (s.doms (s.owner e passed)).refcount ≠ 0 := by
  have hlow : 2 ≤ e := by
    by_contra hlt
    rw [(h.quiet e (by omega)).2] at hs
    cases hs
  have hself : Used s e ∧ (s.doms e).refcount ≠ 0 := by
    refine ⟨⟨hlow, ?_⟩, h.refcount_pos hlow (.inl he)⟩
    by_contra hge
    have := (h.blank e (by omega)).1
    omega
  rw [Pools.owner]
  split_ifs
  · cases hb : (s.doms e).borrowedFrom with
    | none => exact hself
    | some o => exact ⟨(h.edge e o hb).1, h.lender_pos hb⟩
  · exact hself

theorem setDom_domainRef (hne : e ≠ d) (f : Domain → Domain) :
    (s.setDom d f).domainRef (some e) = (s.domainRef (some e)).setDom d f := by
  have hdom : (s.setDom d f).doms e = s.doms e := by rw [setDom_doms, if_neg hne]
  rw [Pools.domainRef, Pools.domainRef, hdom]
  split_ifs
  · rfl
  · simp only [setDom, update_of_ne hne, update_of_ne hne.symm, update_comm hne.symm]

/-- What `domain_for` answers: a domain with no reference yet, or one of the two that are never freed. -/
structure Answered (g : Geometry) (s : Pools) (d : Nat) (s' : Pools) : Prop where
  used : d < 2 + s'.domFresh
  zero : 2 ≤ d → (s'.doms d).refcount = 0
  space : g.translating = true → 2 ≤ d ∧ (s'.doms d).space = true
  windows : s'.windows = s.windows
  fresh : s.domFresh ≤ s'.domFresh

theorem Ledger.handoff (h : Ledger g R P (some d) s) (ht : g.translating = true) (h0 : (s.doms d).refcount = 0)
    (hb : (s.doms d).borrowedFrom = none) (hsp : (s.doms d).space = true) (a : DomainAsk) (donor : Option Nat)
    (hdon : ∀ e, donor = some e → 1 ≤ R e)
    (hfit : ∀ x, 2 ≤ x → R x + P x + s.edges g x + s.wins x < 65535) :
    (∀ s', s.handoff g a donor d = (none, s') → Ledger g R P none s' ∧ WinKept s s') ∧
    (∀ x s', s.handoff g a donor d = (some x, s') → x = d ∧ Ledger g R P (some d) s' ∧ (s'.doms d).refcount = 0 ∧
      (s'.doms d).space = true ∧ s'.windows = s.windows ∧ s'.domFresh = s.domFresh) := by
  cases donor with
  | none =>
    refine ⟨fun s' hs => ?_, fun x s' hs => by cases hs⟩
    cases hs
    exact h.giveUp h0 hb
  | some e =>
    rw [Pools.handoff]
    split_ifs with hok
    · refine ⟨fun s' hs => (by cases hs), fun x s' hs => ?_⟩
      cases hs
      obtain ⟨hu, hr⟩ := h.owner (hdon e rfl) hok.2 a.passedOn
      generalize s.owner e a.passedOn = o at hu hr
      have hne : o ≠ d := by
        rintro rfl
        exact hr h0
      rw [setDom_domainRef hne]
      have href := h.domainRef (d := o) hu.high (fun _ => .inl hr) (hfit o)
      have hrest : ∀ y, ((s.domainRef (some o)).doms y).borrowedFrom = (s.doms y).borrowedFrom ∧
          ((s.domainRef (some o)).doms y).space = (s.doms y).space ∧
          (y ≠ o → (s.domainRef (some o)).doms y = s.doms y) ∧ (s.domainRef (some o)).windows = s.windows ∧
          (s.domainRef (some o)).domFresh = s.domFresh := by
        intro y
        rw [Pools.domainRef, if_neg (by rw [h.not_immortal hu]; exact Bool.false_ne_true), setDom_doms]
        split_ifs with hy
        · exact ⟨by rw [hy], by rw [hy], fun hk => absurd hy hk, rfl, rfl⟩
        · exact ⟨rfl, rfl, fun _ => rfl, rfl, rfl⟩
      obtain ⟨r1, r2, r3, r4, r5⟩ := hrest d
      have hlend := href.lend ht (by rw [r1]; exact hb) ⟨hu.low, by rw [r5]; exact hu.high⟩ hne
      refine ⟨rfl, hlend, ?_, ?_, r4, r5⟩
      · rw [setDom_doms, if_pos rfl]
        show ((s.domainRef (some o)).doms d).refcount = 0
        rw [r3 hne.symm]
        exact h0
      · rw [setDom_doms, if_pos rfl]
        exact r2.trans hsp
    · refine ⟨fun s' hs => ?_, fun x s' hs => by cases hs⟩
      cases hs
      exact h.giveUp h0 hb

theorem Ledger.domainFor (h : Ledger g R P none s) (a : DomainAsk) (ha : a.privileged = false) (donor : Option Nat)
    (hdon : ∀ e, donor = some e → 1 ≤ R e)
    (hfit : ∀ (u : Pools) hole, Ledger g R P hole u → u.windows = s.windows → ∀ x, 2 ≤ x →
      R x + P x + u.edges g x + u.wins x < 65535) :
    (∀ s', s.domainFor g a donor = (none, s') → Ledger g R P none s' ∧ s.domFresh ≤ s'.domFresh ∧
      s'.windows = s.windows) ∧
    (∀ d s', s.domainFor g a donor = (some d, s') → Ledger g R P (if 2 ≤ d then some d else none) s' ∧
      Answered g s d s') := by
  obtain ⟨hc1, hc2⟩ := h.claimSlot a
  unfold Pools.domainFor
  rw [ha]
  simp only [Bool.false_eq_true, if_false]
  by_cases hm : a.mem = false
  · rw [if_pos hm]
    split_ifs with ht
    · refine ⟨fun s' hs => hc1 s' hs, fun d s' hs => ?_⟩
      obtain ⟨hL, hH⟩ := hc2 d s' hs
      have hd := hL.hole_claimed d rfl
      rw [if_pos hd.low]
      exact ⟨hL, hd.high, fun _ => hH.zero, fun _ => ⟨hd.low, hH.space.trans ht⟩, hH.windows, hH.fresh⟩
    · refine ⟨fun s' hs => (by cases hs), fun d s' hs => ?_⟩
      cases hs
      rw [if_neg (by decide)]
      refine ⟨h, ?_, fun hk => absurd hk (by decide), fun hk => absurd hk ht, rfl, le_refl _⟩
      show 1 < 2 + s.domFresh
      omega
  rw [if_neg hm]
  by_cases hn : a.nocache = false
  · rw [if_pos hn]
    refine ⟨fun s' hs => ?_, fun d s' hs => by cases hs⟩
    cases hs
    exact ⟨h, le_refl _, rfl⟩
  rw [if_neg hn]
  cases hcl : s.claimSlot g a with
  | mk o u =>
    cases o with
    | none =>
      refine ⟨fun s' hs => ?_, fun d s' hs => by cases hs⟩
      cases hs
      exact hc1 u hcl
    | some d =>
      obtain ⟨hL, hH⟩ := hc2 d u hcl
      have hd := hL.hole_claimed d rfl
      dsimp only
      by_cases ht : g.translating = true
      · rw [if_pos ht]
        obtain ⟨k1, k2⟩ := hL.handoff ht hH.zero hH.edge (hH.space.trans ht) a donor hdon (hfit u (some d) hL hH.windows)
        refine ⟨fun s' hs => ?_, fun x s' hs => ?_⟩
        · obtain ⟨l1, l2⟩ := k1 s' hs
          exact ⟨l1, by rw [l2.fresh]; exact hH.fresh, l2.windows.trans hH.windows⟩
        obtain ⟨rfl, m1, m2, m3, m4, m5⟩ := k2 x s' hs
        rw [if_pos hd.low]
        refine ⟨m1, ?_, fun _ => m2, fun _ => ⟨hd.low, m3⟩, m4.trans hH.windows, ?_⟩
        · rw [m5]
          exact hd.high
        · rw [m5]
          exact hH.fresh
      · rw [if_neg ht]
        refine ⟨fun s' hs => (by cases hs), fun x s' hs => ?_⟩
        cases hs
        rw [if_pos hd.low]
        exact ⟨hL, hd.high, fun _ => hH.zero, fun hk => absurd hk ht, hH.windows, hH.fresh⟩

theorem Ledger.retireHandoff (h : Ledger g R P hole s) (hd : d < 2 + s.domFresh) :
    Ledger g R (bump P (s.retireHandoff d).1) hole (s.retireHandoff d).2 := by
  cases hb : (s.doms d).borrowedFrom with
  | none =>
    have hsame : (s.retireHandoff d).2 = s := by
      have hx : ({ s.doms d with borrowedFrom := none } : Domain) = s.doms d := by rw [← hb]
      show s.setDom d (fun x => { x with borrowedFrom := none }) = s
      rw [setDom, hx, update_eq_self]
    have hnone : (s.retireHandoff d).1 = none := hb
    rw [hnone, hsame]
    exact h
  | some o =>
    have hsome : (s.retireHandoff d).1 = some o := hb
    have hlt : d < g.domains := lt_of_lt_of_le hd h.fresh_le
    obtain ⟨ho, -⟩ := h.edge d o hb
    have hlow : 2 ≤ d := by
      by_contra hlt
      rw [(h.quiet d (by omega)).1] at hb
      cases hb
    rw [hsome]
    show Ledger g R (bump P (some o)) hole (s.setDom d fun x => { x with borrowedFrom := none })
    have hdom := fun x => setDom_doms (s := s) (d := d) (fun y => { y with borrowedFrom := none }) x
    have hedge : ∀ x, (s.setDom d fun y => { y with borrowedFrom := none }).edges g x + (if x = o then 1 else 0) =
        s.edges g x := by
      intro x
      have hset := edges_set (g := g) s (s.setDom d fun y => { y with borrowedFrom := none }) hlt
        (by rw [hdom, if_pos rfl]; rfl) x
      rw [hb, hdom, if_pos rfl, if_neg (Option.some_ne_none x).symm, Nat.add_zero] at hset
      rw [← hset]
      by_cases hx : x = o
      · subst hx
        simp
      · rw [if_neg hx, if_neg fun hk => hx (Option.some.inj hk).symm]
    have hcount : ∀ x, ((s.setDom d fun y => { y with borrowedFrom := none }).doms x).refcount = (s.doms x).refcount := by
      intro x
      rw [hdom]
      split_ifs with hxd
      · rw [hxd]
      · rfl
    refine ⟨?_, ?_, ?_, ?_, h.free_nodup, h.fresh_le, ?_,
      fun x hx => ⟨(h.hole_claimed x hx).low, (h.hole_claimed x hx).high⟩, ?_, ?_, ?_, ?_⟩
    · intro x hx
      rw [hcount, h.exact x hx, ← hedge x]
      show _ = R x + _ + _ + s.wins x
      simp only [bump]
      omega
    · intro x
      rw [hdom]
      split_ifs with hxd
      · exact hxd ▸ h.immortal x
      · exact h.immortal x
    · intro x hx
      rw [hdom, if_neg (by omega)]
      exact h.quiet x hx
    · intro x
      rw [hcount]
      exact (h.free x).trans ⟨fun k => ⟨⟨k.1.low, k.1.high⟩, k.2⟩, fun k => ⟨⟨k.1.low, k.1.high⟩, k.2⟩⟩
    · intro x hx
      have hx' : 2 + s.domFresh ≤ x := hx
      obtain ⟨b1, b2, b3⟩ := h.blank x hx'
      rw [hdom, if_neg (by omega), bump_of_ne (by have := ho.high; omega)]
      exact ⟨b1, b2, b3⟩
    · intro x y hx
      rw [hdom] at hx
      split_ifs at hx with hxd
      obtain ⟨e1, e2⟩ := h.edge x y hx
      exact ⟨⟨e1.low, e1.high⟩, e2⟩
    · intro w hw
      obtain ⟨w1, w2, w3⟩ := h.win w hw
      exact ⟨w1, w2, fun o ho => ⟨(w3 o ho).low, (w3 o ho).high⟩⟩
    · intro ht x hx hR
      rw [hdom]
      split_ifs with hxd
      · exact hxd ▸ h.spaced ht x hx hR
      · exact h.spaced ht x hx hR
    · intro ht
      rw [(h.flat ht).2 d] at hb
      cases hb

theorem Ledger.domainShed (h : Ledger g R P hole s) (hd : d < 2 + s.domFresh) (h0 : 2 ≤ d → R d = 0) :
    Ledger g R P hole (s.domainShed d) ∧ WinKept s (s.domainShed d) := by
  rw [Pools.domainShed]
  split_ifs with hi
  · exact ⟨h, rfl, rfl⟩
  · rw [not_or] at hi
    have hlow : 2 ≤ d := by
      by_contra hlt
      rw [h.immortal, decide_eq_true (by omega)] at hi
      exact hi.1 rfl
    have hused : Used s d := ⟨hlow, hd⟩
    have hR := h0 hlow
    refine ⟨?_, h.no_window hR, rfl⟩
    refine h.write { s.doms d with space := false } rfl rfl (h.no_window hR) hused (fun _ _ => rfl) (h.exact d hlow)
      (h.not_immortal hused) rfl (fun _ hk => by omega) ?_ h.free_nodup h.hole_claimed ?_ fun e _ he => he
    · intro e
      refine (h.free e).trans ?_
      have hcount : ((s.setDom d fun x => { x with space := false }).doms e).refcount = (s.doms e).refcount := by
        rw [setDom_doms]
        split_ifs with hed
        · rw [hed]
        · rfl
      show _ ↔ _ ∧ ((s.setDom d fun x => { x with space := false }).doms e).refcount = 0 ∧ _
      rw [hcount]
    · intro hb
      obtain ⟨o, ho⟩ := Option.ne_none_iff_exists'.1 hb
      exact (h.edge d o ho).2

theorem Ledger.releaseOption (h : Ledger g R (bump P o) none s) :
    Ledger g R P none (s.domainRelease g o) ∧ WinKept s (s.domainRelease g o) := by
  cases o with
  | none => exact ⟨h, rfl, rfl⟩
  | some d => exact h.domainRelease (Option.some_ne_none d).symm

theorem Ledger.freeDomain (h : Ledger g (bump R (some d)) P none s) (hd : d < 2 + s.domFresh) (h0 : 2 ≤ d → R d = 0)
    (hw : ∀ w ∈ s.windows, w.place ≠ d) :
    Ledger g R P none (s.freeDomain g d) ∧ WinKept s (s.freeDomain g d) := by
  rw [Pools.freeDomain]
  split_ifs with ht
  · have hret := h.retireHandoff hd
    have hedge : ((s.retireHandoff d).2.doms d).borrowedFrom = none := by
      show ((s.setDom d fun x => { x with borrowedFrom := none }).doms d).borrowedFrom = none
      rw [setDom_doms, if_pos rfl]
    have howe := hret.unsettle (.inr ⟨hedge, hw⟩)
    obtain ⟨hshed, kshed⟩ := howe.domainShed hd h0
    obtain ⟨hown, kown⟩ := hshed.domainRelease (Option.some_ne_none d).symm
    obtain ⟨hdon, kdon⟩ := hown.releaseOption
    have kret : WinKept s (s.retireHandoff d).2 := ⟨rfl, rfl⟩
    exact ⟨hdon, ((kret.trans kshed).trans kown).trans kdon⟩
  · have hflat := h.flat (by simpa using ht)
    exact (h.unsettle (.inr ⟨hflat.2 d, hw⟩)).domainRelease (Option.some_ne_none d).symm

theorem Ledger.unmapWindow (h : Ledger g R P none s) {w : Window} (hw : w ∈ s.windows) :
    Ledger g R P none (s.unmapWindow g w) ∧ (s.unmapWindow g w).windows = s.windows.erase w ∧
      (s.unmapWindow g w).domFresh = s.domFresh := by
  have hdonor := (h.win w hw).2.2
  have hwins : ∀ x, ({ s with windows := s.windows.erase w } : Pools).wins x + (if w.donor = some x then 1 else 0) =
      s.wins x := by
    intro x
    show (s.windows.erase w).countP _ + _ = s.windows.countP _
    rw [List.countP_erase]
    by_cases hx : w.donor = some x
    · have hpos : 0 < s.windows.countP fun v => decide (v.donor = some x) :=
        List.countP_pos_iff.2 ⟨w, hw, decide_eq_true hx⟩
      simp only [hw, hx, decide_true, and_self, if_true]
      omega
    · simp [hx]
  have hL : Ledger g R (bump P w.donor) none { s with windows := s.windows.erase w } := by
    refine ⟨?_, h.immortal, h.quiet, ?_, h.free_nodup, h.fresh_le, ?_, ?_, ?_, ?_, h.spaced, ?_⟩
    · intro x hx
      rw [h.exact x hx, ← hwins x]
      show R x + P x + s.edges g x + _ = R x + _ + s.edges g x + _
      cases hd : w.donor with
      | none => simp [bump]
      | some y =>
        simp only [bump, Option.some.injEq]
        by_cases hxy : x = y
        · simp [hxy]
          omega
        · simp [hxy, Ne.symm hxy]
    · exact fun x => (h.free x).trans ⟨fun k => ⟨⟨k.1.low, k.1.high⟩, k.2⟩, fun k => ⟨⟨k.1.low, k.1.high⟩, k.2⟩⟩
    · intro x hx
      obtain ⟨b1, b2, b3⟩ := h.blank x hx
      refine ⟨b1, ?_, b3⟩
      cases hd : w.donor with
      | none => exact b2
      | some y =>
        have hy := (hdonor y hd).high
        have hx' : 2 + s.domFresh ≤ x := hx
        rw [bump_of_ne (by omega)]
        exact b2
    · exact fun x hx => absurd hx (Option.some_ne_none x).symm
    · intro x y hx
      obtain ⟨e1, e2⟩ := h.edge x y hx
      exact ⟨⟨e1.low, e1.high⟩, e2⟩
    · intro v hv
      obtain ⟨w1, w2, w3⟩ := h.win v (List.mem_of_mem_erase hv)
      exact ⟨w1, w2, fun o ho => ⟨(w3 o ho).low, (w3 o ho).high⟩⟩
    · intro ht
      rw [(h.flat ht).1] at hw
      exact absurd hw List.not_mem_nil
  obtain ⟨hrel, hkept⟩ := hL.releaseOption
  exact ⟨hrel, hkept.windows, hkept.fresh⟩

theorem Ledger.unmapWindows : ∀ (l : List Window) (s : Pools), Ledger g R P none s →
    (∀ w, l.count w ≤ s.windows.count w) → Ledger g R P none (l.foldl (Pools.unmapWindow g) s) ∧
      (l.foldl (Pools.unmapWindow g) s).windows = s.windows.diff l ∧
      (l.foldl (Pools.unmapWindow g) s).domFresh = s.domFresh
  | [], s, h, _ => ⟨h, rfl, rfl⟩
  | w :: rest, s, h, hl => by
    have hw : w ∈ s.windows := by
      have := hl w
      rw [List.count_cons_self] at this
      exact List.count_pos_iff.1 (by omega)
    obtain ⟨h1, h2, h3⟩ := h.unmapWindow hw
    have hrest : ∀ v, rest.count v ≤ (s.unmapWindow g w).windows.count v := by
      intro v
      have := hl v
      rw [h2, List.count_erase]
      rw [List.count_cons] at this
      simp only [beq_iff_eq] at this ⊢
      split_ifs at this ⊢ <;> omega
    obtain ⟨k1, k2, k3⟩ := Ledger.unmapWindows rest _ h1 hrest
    refine ⟨k1, ?_, k3.trans h3⟩
    rw [List.foldl_cons, k2, h2, List.diff_cons]

theorem Ledger.unmapHolder (h : Ledger g R P none s) (holder : Nat)
    (hs : ∀ w ∈ s.windows, w.place = d → w.holder = holder → (s.doms d).space = true) :
    Ledger g R P none (s.unmapHolder g (some d) holder) ∧
      (∀ w, (s.unmapHolder g (some d) holder).windows.count w =
        if w.place = d ∧ w.holder = holder then 0 else s.windows.count w) ∧
      (s.unmapHolder g (some d) holder).domFresh = s.domFresh := by
  have hcount : ∀ w, (s.windows.filter fun v => decide (v.place = d ∧ v.holder = holder)).count w =
      if w.place = d ∧ w.holder = holder then s.windows.count w else 0 := by
    intro w
    split_ifs with hw
    · exact List.count_filter (decide_eq_true hw)
    · rw [List.count_eq_zero]
      intro hm
      exact hw (of_decide_eq_true (List.mem_filter.1 hm).2)
  rw [Pools.unmapHolder]
  split_ifs with hsp
  · obtain ⟨k1, k2, k3⟩ := Ledger.unmapWindows (s.windows.filter fun v => decide (v.place = d ∧ v.holder = holder)) s h
      (fun w => by rw [hcount]; split_ifs <;> omega)
    refine ⟨k1, fun w => ?_, k3⟩
    rw [k2, List.count_diff, hcount]
    split_ifs <;> omega
  · refine ⟨h, fun w => ?_, rfl⟩
    split_ifs with hw
    · rw [List.count_eq_zero]
      exact fun hm => hsp (hs w hm hw.1 hw.2)
    · rfl

theorem domainRef_windows (o : Option Nat) (l : List Window) :
    ({ s with windows := l } : Pools).domainRef o = { s.domainRef o with windows := l } := by
  cases o with
  | none => rfl
  | some d =>
    rw [Pools.domainRef, Pools.domainRef]
    split_ifs <;> rfl

theorem domainRef_kept (o : Option Nat) : WinKept s (s.domainRef o) := by
  cases o with
  | none => exact ⟨rfl, rfl⟩
  | some d =>
    rw [Pools.domainRef]
    split_ifs <;> exact ⟨rfl, rfl⟩

theorem Ledger.seatWindow {w : Window} (h : Ledger g R (bump P w.donor) none s) (ht : g.translating = true)
    (hp : 2 ≤ w.place) (hR : 1 ≤ R w.place) (hdon : ∀ e, w.donor = some e → Used s e) :
    Ledger g R P none { s with windows := w :: s.windows } := by
  have hwins : ∀ x, ({ s with windows := w :: s.windows } : Pools).wins x =
      s.wins x + if w.donor = some x then 1 else 0 := by
    intro x
    show (w :: s.windows).countP _ = s.windows.countP _ + _
    rw [List.countP_cons]
    by_cases hx : w.donor = some x <;> simp [hx]
  refine ⟨?_, h.immortal, h.quiet, ?_, h.free_nodup, h.fresh_le, ?_, ?_, ?_, ?_, h.spaced, ?_⟩
  · intro x hx
    rw [hwins, h.exact x hx]
    show _ = R x + P x + s.edges g x + _
    cases hd : w.donor with
    | none => simp [bump]
    | some y =>
      simp only [bump, Option.some.injEq]
      by_cases hxy : x = y
      · simp [hxy]
        omega
      · simp [hxy, Ne.symm hxy]
  · exact fun x => (h.free x).trans ⟨fun k => ⟨⟨k.1.low, k.1.high⟩, k.2⟩, fun k => ⟨⟨k.1.low, k.1.high⟩, k.2⟩⟩
  · intro x hx
    obtain ⟨b1, b2, b3⟩ := h.blank x hx
    exact ⟨b1, Nat.le_zero.1 (le_trans le_bump (le_of_eq b2)), b3⟩
  · exact fun x hx => absurd hx (Option.some_ne_none x).symm
  · intro x y hx
    obtain ⟨e1, e2⟩ := h.edge x y hx
    exact ⟨⟨e1.low, e1.high⟩, e2⟩
  · intro v hv
    rcases List.mem_cons.1 hv with rfl | hv
    · exact ⟨hp, hR, fun o ho => ⟨(hdon o ho).low, (hdon o ho).high⟩⟩
    · obtain ⟨w1, w2, w3⟩ := h.win v hv
      exact ⟨w1, w2, fun o ho => ⟨(w3 o ho).low, (w3 o ho).high⟩⟩
  · intro hf
    rw [ht] at hf
    cases hf

theorem Ledger.used (h : Ledger g R P hole s) (hlow : 2 ≤ d) (hR : 1 ≤ R d) : Used s d := by
  refine ⟨hlow, ?_⟩
  by_contra hge
  have := (h.blank d (by omega)).1
  omega

theorem Ledger.mapWindow (h : Ledger g R P none s) (ht : g.translating = true) {w : Window} (hp : 2 ≤ w.place)
    (hR : 1 ≤ R w.place) (hdon : ∀ e, w.donor = some e → 2 ≤ e ∧ 1 ≤ R e)
    (hfit : ∀ x, 2 ≤ x → R x + P x + s.edges g x + s.wins x < 65535) :
    Ledger g R P none (s.mapWindow w) ∧ (s.mapWindow w).windows = w :: s.windows ∧
      (s.mapWindow w).domFresh = s.domFresh := by
  have hkept := domainRef_kept (s := s) w.donor
  have href : Ledger g R (bump P w.donor) none (s.domainRef w.donor) := by
    cases hd : w.donor with
    | none => exact h
    | some e =>
      obtain ⟨e1, e2⟩ := hdon e hd
      exact h.domainRef (h.used e1 e2).high (fun _ => .inl (h.refcount_pos e1 (.inl e2))) (hfit e)
  have heq : s.mapWindow w = { s.domainRef w.donor with windows := w :: (s.domainRef w.donor).windows } := by
    rw [Pools.mapWindow, domainRef_windows, hkept.windows]
  rw [heq]
  refine ⟨href.seatWindow ht hp hR fun e he => ?_, by rw [hkept.windows], hkept.fresh⟩
  obtain ⟨e1, e2⟩ := hdon e he
  exact href.used e1 e2

end Pools
end Life
end KickOS
