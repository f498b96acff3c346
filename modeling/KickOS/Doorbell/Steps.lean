import KickOS.Doorbell.Invariant

/-! Every step keeps the invariant, while fewer than 2^32 requests stand. -/

namespace KickOS
namespace Doorbell
open Function (update update_of_ne update_self)

variable {n : Nat} {lineCore : Int → Int} {s s' : St n} {c t : Fin n} {a : Act n}

/-! ### What a step can do -/

/-- One case for each way through a step. -/
inductive Does (lineCore : Int → Int) (s : St n) : Act n → St n → Prop
  | send {c : Fin n} {cores : Fin n → Bool} (hout : s.pass c = .out) (hp : s.prog c = .idle) :
    Does lineCore s (.send c cores) (s.setProg c (.bump (List.finRange n) cores none))
  | bump {c u : Fin n} {rest : List (Fin n)} {cores : Fin n → Bool} {routed : Option (Routed n)} (hout : s.pass c = .out)
    (hp : s.prog c = .bump (u :: rest) cores routed) (hcores : cores u = true) :
    Does lineCore s (.bump c u)
      { s.setProg c (.bump rest cores routed) with request := set2 s.request c u (s.request c u + 1) }
  | skip {c u : Fin n} {rest : List (Fin n)} {cores : Fin n → Bool} {routed : Option (Routed n)} (hout : s.pass c = .out)
    (hp : s.prog c = .bump (u :: rest) cores routed) (hcores : cores u = false) :
    Does lineCore s (.skip c u) (s.setProg c (.bump rest cores routed))
  | poll {c : Fin n} {cores : Fin n → Bool} {routed : Option (Routed n)} (hout : s.pass c = .out)
    (hp : s.prog c = .bump [] cores routed) :
    Does lineCore s (.own c true) ((s.setProg c (.raise cores routed)).setPass c (.snapshot (List.finRange n) false))
  | own {c : Fin n} {cores : Fin n → Bool} {routed : Option (Routed n)} (hout : s.pass c = .out)
    (hp : s.prog c = .bump [] cores routed) : Does lineCore s (.own c false) (s.setProg c (.raise cores routed))
  | sent {c : Fin n} {cores : Fin n → Bool} (hout : s.pass c = .out) (hp : s.prog c = .raise cores none) :
    Does lineCore s (.raise c) (s.setProg c .idle)
  | raise {c : Fin n} {cores : Fin n → Bool} {r : Routed n} (hout : s.pass c = .out) (hp : s.prog c = .raise cores (some r)) :
    Does lineCore s (.raise c) (s.setProg c (.look (List.finRange n) cores (some r)))
  | wait {c : Fin n} {cores : Fin n → Bool} (hout : s.pass c = .out) (hp : s.prog c = .idle) :
    Does lineCore s (.wait c cores) (s.setProg c (.look (List.finRange n) cores none))
  | look {c u : Fin n} {rest : List (Fin n)} {cores : Fin n → Bool} {routed : Option (Routed n)} (hout : s.pass c = .out)
    (hp : s.prog c = .look (u :: rest) cores routed) :
    Does lineCore s (.look c u)
      (s.setProg c (if cores u ∧ u ≠ c then .spin u (s.request c u) rest cores routed else .look rest cores routed))
  | spin {c : Fin n} : Does lineCore s (.spin c) s
  | settle {c u : Fin n} {asked : Nat} {rest : List (Fin n)} {cores : Fin n → Bool} {routed : Option (Routed n)}
    (hout : s.pass c = .out) (hp : s.prog c = .spin u asked rest cores routed)
    (hword : s.answer u c % word = asked % word) : Does lineCore s (.settle c u) (s.setProg c (.look rest cores routed))
  | waited {c : Fin n} {cores : Fin n → Bool} {routed : Option (Routed n)} (hout : s.pass c = .out)
    (hp : s.prog c = .look [] cores routed) : Does lineCore s (.waited c routed) (s.setProg c .idle)
  | route {c t : Fin n} {line : Int} {op : LineOp} {isr : Bool} (hout : s.pass c = .out) (hp : s.prog c = .idle)
    (ht : route n lineCore c line isr = some t) : Does lineCore s (.lineOp c line op isr) (s.setProg c (.line ⟨t, line, op⟩))
  | here {c : Fin n} {line : Int} {op : LineOp} {isr : Bool} (ht : Doorbell.route n lineCore c line isr = none) :
    Does lineCore s (.lineOp c line op isr) s
  | storeLine {c : Fin n} {r : Routed n} (hout : s.pass c = .out) (hp : s.prog c = .line r) :
    Does lineCore s (.storeLine c)
      ({ s with ask := set2 s.ask c r.owner { s.ask c r.owner with line := r.line } }.setProg c (.op r))
  | storeOp {c : Fin n} {r : Routed n} (hout : s.pass c = .out) (hp : s.prog c = .op r) :
    Does lineCore s (.storeOp c)
      ({ s with ask := set2 s.ask c r.owner { s.ask c r.owner with op := r.op } }.setProg c (.seq r))
  | storeSeq {c : Fin n} {r : Routed n} (hout : s.pass c = .out) (hp : s.prog c = .seq r) :
    Does lineCore s (.storeSeq c)
      ({ s with ask := set2 s.ask c r.owner { s.ask c r.owner with seq := (s.ask c r.owner).seq + 1 } }.setProg c
        (.bump (List.finRange n) (fun t => decide (t = r.owner)) (some r)))
  | service {t : Fin n} (hq : s.pass t = .out) : Does lineCore s (.service t) (s.setPass t (.snapshot (List.finRange n) false))
  | load {t i : Fin n} {rest : List (Fin n)} {owed : Bool} (hq : s.pass t = .snapshot (i :: rest) owed) :
    Does lineCore s (.load t i)
      ({ s with asked := set2 s.asked t i (s.request i t) }.setPass t
        (.snapshot rest (owed || decide (s.request i t % word ≠ s.answer t i % word))))
  | fence {t : Fin n} (hq : s.pass t = .snapshot [] true) : Does lineCore s (.fence t) (s.setPass t (.drain (List.finRange n)))
  | fetch {t i : Fin n} {rest : List (Fin n)} (hq : s.pass t = .drain (i :: rest)) :
    Does lineCore s (.fetch t i)
      (s.setPass t (if (s.ask i t).seq % word = s.ran t i % word then .drain rest else .fetched i (s.ask i t).seq rest))
  | fetchLine {t i : Fin n} {seq : Nat} {rest : List (Fin n)} (hq : s.pass t = .fetched i seq rest) :
    Does lineCore s (.fetchLine t) (s.setPass t (.lined i seq (s.ask i t).line rest))
  | fetchOp {t i : Fin n} {seq : Nat} {line : Int} {rest : List (Fin n)} (hq : s.pass t = .lined i seq line rest) :
    Does lineCore s (.fetchOp t) (s.setPass t (.ready i seq line (s.ask i t).op rest))
  | perform {t i : Fin n} {seq : Nat} {line : Int} {op : LineOp} {rest : List (Fin n)}
    (hq : s.pass t = .ready i seq line op rest) :
    Does lineCore s (.perform t i line op) (s.setPass t (.performed i seq rest))
  | storeRan {t i : Fin n} {seq : Nat} {rest : List (Fin n)} (hq : s.pass t = .performed i seq rest) :
    Does lineCore s (.storeRan t) ({ s with ran := set2 s.ran t i seq }.setPass t (.drain rest))
  | drained {t : Fin n} (hq : s.pass t = .drain []) : Does lineCore s (.drained t) (s.setPass t (.publish (List.finRange n)))
  | answer {t i : Fin n} {rest : List (Fin n)} (hq : s.pass t = .publish (i :: rest))
    (hword : s.asked t i % word ≠ s.answer t i % word) :
    Does lineCore s (.answer t i) { s.setPass t (.publish rest) with answer := set2 s.answer t i (s.asked t i) }
  | answered {t i : Fin n} {rest : List (Fin n)} (hq : s.pass t = .publish (i :: rest))
    (hword : s.asked t i % word = s.answer t i % word) : Does lineCore s (.answer t i) (s.setPass t (.publish rest))
  | idle {t : Fin n} (hq : s.pass t = .snapshot [] false) : Does lineCore s (.finish t) (s.setPass t .out)
  | finish {t : Fin n} (hq : s.pass t = .publish []) : Does lineCore s (.finish t) (s.setPass t .out)

theorem send_does {cores : Fin n → Bool} (hout : s.pass c = .out) (hs : s.go lineCore (.send c cores) = some s') :
    Does lineCore s (.send c cores) s' := by
  dsimp only [St.go] at hs
  split at hs
  · rename_i hp
    cases hs
    exact .send hout hp
  · cases hs

theorem bump_does {peer : Fin n} (hout : s.pass c = .out) (hs : s.go lineCore (.bump c peer) = some s') :
    Does lineCore s (.bump c peer) s' := by
  dsimp only [St.go] at hs
  split at hs
  · rename_i u rest cores routed hp
    split at hs
    · rename_i hu
      obtain ⟨rfl, hc⟩ := hu
      cases hs
      exact .bump hout hp hc
    · cases hs
  · cases hs

theorem skip_does {peer : Fin n} (hout : s.pass c = .out) (hs : s.go lineCore (.skip c peer) = some s') :
    Does lineCore s (.skip c peer) s' := by
  dsimp only [St.go] at hs
  split at hs
  · rename_i u rest cores routed hp
    split at hs
    · rename_i hu
      obtain ⟨rfl, hc⟩ := hu
      cases hs
      exact .skip hout hp hc
    · cases hs
  · cases hs

theorem own_does {serviced : Bool} (hout : s.pass c = .out) (hs : s.go lineCore (.own c serviced) = some s') :
    Does lineCore s (.own c serviced) s' := by
  dsimp only [St.go] at hs
  split at hs
  · rename_i cores routed hp
    split at hs
    · rename_i hc
      cases hs
      obtain ⟨-, rfl⟩ := hc
      exact .poll hout hp
    · split at hs
      · rename_i hc
        cases hs
        obtain ⟨rfl, -⟩ := hc
        exact .own hout hp
      · cases hs
  · cases hs

theorem raise_does (hout : s.pass c = .out) (hs : s.go lineCore (.raise c) = some s') : Does lineCore s (.raise c) s' := by
  dsimp only [St.go] at hs
  split at hs
  · rename_i cores hp
    cases hs
    exact .sent hout hp
  · rename_i cores r hp
    cases hs
    exact .raise hout hp
  · cases hs

theorem wait_does {cores : Fin n → Bool} (hout : s.pass c = .out) (hs : s.go lineCore (.wait c cores) = some s') :
    Does lineCore s (.wait c cores) s' := by
  dsimp only [St.go] at hs
  split at hs
  · rename_i hp
    cases hs
    exact .wait hout hp
  · cases hs

theorem look_does {peer : Fin n} (hout : s.pass c = .out) (hs : s.go lineCore (.look c peer) = some s') :
    Does lineCore s (.look c peer) s' := by
  dsimp only [St.go] at hs
  split at hs
  · rename_i u rest cores routed hp
    split at hs
    · rename_i hu
      subst hu
      cases hs
      exact .look hout hp
    · cases hs
  · cases hs

theorem settle_does {peer : Fin n} (hout : s.pass c = .out) (hs : s.go lineCore (.settle c peer) = some s') :
    Does lineCore s (.settle c peer) s' := by
  dsimp only [St.go] at hs
  split at hs
  · rename_i u asked rest cores routed hp
    split at hs
    · rename_i hu
      obtain ⟨rfl, hword⟩ := hu
      cases hs
      exact .settle hout hp hword
    · cases hs
  · cases hs

theorem waited_does {routed : Option (Routed n)} (hout : s.pass c = .out)
    (hs : s.go lineCore (.waited c routed) = some s') : Does lineCore s (.waited c routed) s' := by
  dsimp only [St.go] at hs
  split at hs
  · rename_i cores routed' hp
    split at hs
    · rename_i hr
      subst hr
      cases hs
      exact .waited hout hp
    · cases hs
  · cases hs

theorem lineOp_does {line : Int} {op : LineOp} {isr : Bool} (hout : s.pass c = .out)
    (hs : s.go lineCore (.lineOp c line op isr) = some s') : Does lineCore s (.lineOp c line op isr) s' := by
  dsimp only [St.go] at hs
  split at hs
  · rename_i hp
    split at hs
    · rename_i t ht
      cases hs
      exact .route hout hp ht
    · rename_i ht
      cases hs
      exact .here ht
  · cases hs

theorem storeLine_does (hout : s.pass c = .out) (hs : s.go lineCore (.storeLine c) = some s') :
    Does lineCore s (.storeLine c) s' := by
  dsimp only [St.go] at hs
  split at hs
  · rename_i r hp
    cases hs
    exact .storeLine hout hp
  · cases hs

theorem storeOp_does (hout : s.pass c = .out) (hs : s.go lineCore (.storeOp c) = some s') : Does lineCore s (.storeOp c) s' := by
  dsimp only [St.go] at hs
  split at hs
  · rename_i r hp
    cases hs
    exact .storeOp hout hp
  · cases hs

theorem storeSeq_does (hout : s.pass c = .out) (hs : s.go lineCore (.storeSeq c) = some s') :
    Does lineCore s (.storeSeq c) s' := by
  dsimp only [St.go] at hs
  split at hs
  · rename_i r hp
    cases hs
    exact .storeSeq hout hp
  · cases hs

theorem go_does (hout : ∀ c, St.initiator a = some c → s.pass c = .out) (hs : s.go lineCore a = some s') :
    Does lineCore s a s' := by
  cases a with
  | send c cores => exact send_does (hout c rfl) hs
  | bump c peer => exact bump_does (hout c rfl) hs
  | skip c peer => exact skip_does (hout c rfl) hs
  | own c serviced => exact own_does (hout c rfl) hs
  | raise c => exact raise_does (hout c rfl) hs
  | wait c cores => exact wait_does (hout c rfl) hs
  | look c peer => exact look_does (hout c rfl) hs
  | spin c =>
    dsimp only [St.go] at hs
    split at hs
    · split at hs
      · cases hs
        exact .spin
      · cases hs
    · cases hs
  | settle c peer => exact settle_does (hout c rfl) hs
  | waited c routed => exact waited_does (hout c rfl) hs
  | lineOp c line op isr => exact lineOp_does (hout c rfl) hs
  | storeLine c => exact storeLine_does (hout c rfl) hs
  | storeOp c => exact storeOp_does (hout c rfl) hs
  | storeSeq c => exact storeSeq_does (hout c rfl) hs
  | service | load | fence | fetch | fetchLine | fetchOp | perform | storeRan | drained | answer | finish => cases hs

theorem load_does {i : Fin n} (hs : s.serve (.load t i) = some s') : Does lineCore s (.load t i) s' := by
  dsimp only [St.serve] at hs
  split at hs
  · rename_i j rest owed hq
    split at hs
    · rename_i hj
      subst hj
      cases hs
      exact .load hq
    · cases hs
  · cases hs

theorem fetch_does {i : Fin n} (hs : s.serve (.fetch t i) = some s') : Does lineCore s (.fetch t i) s' := by
  dsimp only [St.serve] at hs
  split at hs
  · rename_i j rest hq
    split at hs
    · rename_i hj
      subst hj
      cases hs
      exact .fetch hq
    · cases hs
  · cases hs

theorem perform_does {i : Fin n} {line : Int} {op : LineOp} (hs : s.serve (.perform t i line op) = some s') :
    Does lineCore s (.perform t i line op) s' := by
  dsimp only [St.serve] at hs
  split at hs
  · rename_i hq
    split at hs
    · rename_i heq
      obtain ⟨rfl, rfl, rfl⟩ := heq
      cases hs
      exact .perform hq
    · cases hs
  · cases hs

theorem answer_does {i : Fin n} (hs : s.serve (.answer t i) = some s') : Does lineCore s (.answer t i) s' := by
  dsimp only [St.serve] at hs
  split at hs
  · rename_i j rest hq
    split at hs
    · rename_i hj
      subst hj
      cases hs
      split
      · rename_i hword
        exact .answer hq hword
      · rename_i hword
        exact .answered hq (not_not.mp hword)
    · cases hs
  · cases hs

theorem finish_does (hs : s.serve (.finish t) = some s') : Does lineCore s (.finish t) s' := by
  dsimp only [St.serve] at hs
  split at hs
  · rename_i hq
    cases hs
    exact .idle hq
  · rename_i hq
    cases hs
    exact .finish hq
  · cases hs

theorem serve_does (hs : s.serve a = some s') : Does lineCore s a s' := by
  cases a with
  | service t =>
    dsimp only [St.serve] at hs
    split at hs
    · rename_i hq
      cases hs
      exact .service hq
    · cases hs
  | load t i => exact load_does hs
  | fence t =>
    dsimp only [St.serve] at hs
    split at hs
    · rename_i hq
      cases hs
      exact .fence hq
    · cases hs
  | fetch t i => exact fetch_does hs
  | fetchLine t =>
    dsimp only [St.serve] at hs
    split at hs
    · rename_i hq
      cases hs
      exact .fetchLine hq
    · cases hs
  | fetchOp t =>
    dsimp only [St.serve] at hs
    split at hs
    · rename_i hq
      cases hs
      exact .fetchOp hq
    · cases hs
  | perform t i line op => exact perform_does hs
  | storeRan t =>
    dsimp only [St.serve] at hs
    split at hs
    · rename_i hq
      cases hs
      exact .storeRan hq
    · cases hs
  | drained t =>
    dsimp only [St.serve] at hs
    split at hs
    · rename_i hq
      cases hs
      exact .drained hq
    · cases hs
  | answer t i => exact answer_does hs
  | finish t => exact finish_does hs
  | send | bump | skip | own | raise | wait | look | spin | settle | waited | lineOp | storeLine | storeOp | storeSeq => cases hs

theorem step_does (hs : s.step lineCore a = some s') : Does lineCore s a s' := by
  unfold St.step at hs
  split at hs
  · rename_i c hc
    split at hs
    · rename_i hout
      refine go_does (fun d hd => ?_) hs
      obtain rfl := Option.some.inj (hc.symm.trans hd)
      exact hout
    · cases hs
  · exact serve_does hs

/-! ### The invariant -/

/-- A core's send, wait or routed operation moves on: only its own requests and slots can have changed. -/
theorem Inv.initiator {request : Fin n → Fin n → Nat} {ask : Fin n → Fin n → Ask} {p : Prog n} (h : Inv s)
    (hreq : ∀ d t, d ≠ c → request d t = s.request d t) (hask : ∀ d t, d ≠ c → ask d t = s.ask d t)
    (hpair : ∀ t, Pair c t (request c t) (s.answer t c) (s.asked t c) (ask c t) (s.ran t c) p (s.pass t)) :
    Inv { s with request := request, ask := ask, prog := update s.prog c p } := by
  intro d t
  by_cases hd : d = c
  · subst hd
    show Pair d t (request d t) (s.answer t d) (s.asked t d) (ask d t) (s.ran t d) (update s.prog d p d) (s.pass t)
    rw [update_self]
    exact hpair t
  · show Pair d t (request d t) (s.answer t d) (s.asked t d) (ask d t) (s.ran t d) (update s.prog c p d) (s.pass t)
    rw [update_of_ne hd, hreq d t hd, hask d t hd]
    exact h d t

theorem Inv.setProg {p : Prog n} (h : Inv s)
    (hpair : ∀ t, Pair c t (s.request c t) (s.answer t c) (s.asked t c) (s.ask c t) (s.ran t c) p (s.pass t)) :
      Inv (s.setProg c p) :=
  h.initiator (fun _ _ _ => rfl) (fun _ _ _ => rfl) hpair

theorem Inv.server {answer asked ran : Fin n → Fin n → Nat} {q : Pass n} (h : Inv s)
    (hans : ∀ u d, u ≠ t → answer u d = s.answer u d) (hasked : ∀ u d, u ≠ t → asked u d = s.asked u d)
    (hran : ∀ u d, u ≠ t → ran u d = s.ran u d)
    (hpair : ∀ c, Pair c t (s.request c t) (answer t c) (asked t c) (s.ask c t) (ran t c) (s.prog c) q) :
    Inv { s with answer := answer, asked := asked, ran := ran, pass := update s.pass t q } := by
  intro c u
  by_cases hu : u = t
  · subst hu
    show Pair c u (s.request c u) (answer u c) (asked u c) (s.ask c u) (ran u c) (s.prog c) (update s.pass u q u)
    rw [update_self]
    exact hpair c
  · show Pair c u (s.request c u) (answer u c) (asked u c) (s.ask c u) (ran u c) (s.prog c) (update s.pass t q u)
    rw [update_of_ne hu, hans u c hu, hasked u c hu, hran u c hu]
    exact h c u

theorem Inv.setPass {q : Pass n} (h : Inv s)
    (hpair : ∀ c, Pair c t (s.request c t) (s.answer t c) (s.asked t c) (s.ask c t) (s.ran t c) (s.prog c) q) :
      Inv (s.setPass t q) :=
  h.server (fun _ _ _ => rfl) (fun _ _ _ => rfl) (fun _ _ _ => rfl) hpair

theorem Inv.at (h : Inv s) {p : Prog n} (hp : s.prog c = p) (t : Fin n) :
    Pair c t (s.request c t) (s.answer t c) (s.asked t c) (s.ask c t) (s.ran t c) p (s.pass t) := hp ▸ h c t

theorem Inv.in (h : Inv s) {q : Pass n} (hq : s.pass t = q) (c : Fin n) :
    Pair c t (s.request c t) (s.answer t c) (s.asked t c) (s.ask c t) (s.ran t c) (s.prog c) q := hq ▸ h c t

theorem route_ne {line : Int} {isr : Bool} (h : route n lineCore c line isr = some t) : t ≠ c ∧ isr = false ∧
    ((t : Nat) : Int) = lineCore line := by
  unfold route at h
  dsimp only at h
  split at h
  · rename_i hb
    split at h
    · rename_i hc
      cases h
      exact ⟨hc.1, hc.2, Int.toNat_of_nonneg hb.1⟩
    · cases h
  · cases h

theorem Inv.start (h : Inv s) (hq : s.pass t = .out) : Inv (s.setPass t (.snapshot (List.finRange n) false)) :=
  h.setPass fun c => (h.in hq c).pass (fun seq hm => by cases hm) trivial fun ha => ha.elim

theorem Inv.store {r : Routed n} {v : Ask} {p p' : Prog n} (h : Inv s) (hp : s.prog c = p) (hnone : p.posted = none)
    (hseq : v.seq = (s.ask c r.owner).seq ∧ p'.posted = none ∨ v.seq = (s.ask c r.owner).seq + 1 ∧
      p'.posted = some r ∧ ¬ p'.Counted r.owner)
    (hnames : ∀ t, p'.Names c t (set2 s.ask c r.owner v c t)) (hwaits : ∀ t, p'.Waits c t (s.request c t) (s.answer t c)) :
    Inv ({ s with ask := set2 s.ask c r.owner v }.setProg c p') := by
  refine h.initiator (fun _ _ _ => rfl) (fun d t hd => set2_of_ne fun hc => hd hc.1) fun t => ?_
  have hpair := h.at hp t
  dsimp only
  by_cases ht : t = r.owner
  · subst ht
    rw [set2_self]
    refine hpair.store hnone ?_ ?_ (hwaits _)
    · rcases hseq with hs | ⟨hs, hr, hc⟩
      · exact Or.inl hs
      · exact Or.inr ⟨hs, ⟨r, hr, rfl⟩, hc⟩
    · have := hnames r.owner
      rwa [set2_self] at this
  · have hsame : set2 s.ask c r.owner v c t = s.ask c t := set2_of_ne fun hc => ht hc.2
    have hn := hnames t
    rw [hsame] at hn ⊢
    have hran : s.ran t c = (s.ask c t).seq := hpair.quiet fun r' hr' => by
      rw [hnone] at hr'
      cases hr'
    exact
      { hpair with
        quiet := fun _ => hran
        names := hn
        waits := hwaits t
        drains := fun _ _ _ => Or.inl hran
        settles := fun _ _ _ => hran }

theorem Inv.own {cores : Fin n → Bool} {routed : Option (Routed n)} (h : Inv s) (hp : s.prog c = .bump [] cores routed) :
    Inv (s.setProg c (.raise cores routed)) :=
  h.setProg fun t => (h.at hp t).prog rfl (fun _ _ => by simp [Prog.Counted]) (h.at hp t).names trivial

theorem inv_step (h : Inv s) (hb : Below s) (hs : s.step lineCore a = some s') : Inv s' := by
  cases step_does hs with
  | send hout hp =>
    refine h.setProg fun t => (h.at hp t).prog rfl ?_ (fun r hr => by cases hr) trivial
    rintro ⟨r, hr, -⟩
    cases hr
  | @bump c u rest cores routed hout hp hcores =>
    refine h.initiator (fun d t hd => set2_of_ne fun hc => hd hc.1) (fun _ _ _ => rfl) fun t => (h.at hp t).bump ?_
    by_cases ht : t = u
    · subst ht
      simp [hcores]
    · rw [set2_of_ne fun hc => ht hc.2, if_neg fun hc => ht hc.1]
  | @skip c u rest cores routed hout hp hcores =>
    refine h.setProg fun t => (h.at hp t).bump ?_
    rw [if_neg]
    rintro ⟨-, hc⟩
    rw [hcores] at hc
    cases hc
  | poll hout hp => exact (h.own hp).start hout
  | own hout hp => exact h.own hp
  | sent hout hp =>
    refine h.setProg fun t => (h.at hp t).prog rfl ?_ trivial trivial
    rintro ⟨r, hr, -⟩
    cases hr
  | raise hout hp =>
    exact h.setProg fun t => (h.at hp t).prog rfl (fun _ _ => trivial) (h.at hp t).names fun _ _ => Or.inl (List.mem_finRange t)
  | wait hout hp =>
    refine h.setProg fun t => (h.at hp t).prog rfl ?_ (fun r hr => by cases hr) fun _ _ => Or.inl (List.mem_finRange t)
    rintro ⟨r, hr, -⟩
    cases hr
  | look hout hp => exact h.setProg fun t => (h.at hp t).look fun ht => by rw [ht]
  | spin => exact h
  | settle hout hp hword => exact h.setProg fun t => (h.at hp t).settle (hb _ t) fun ht => by rw [ht]; exact hword
  | waited hout hp =>
    refine h.setProg fun t => ?_
    have hran := (h.at hp t).waited
    exact
      { h.at hp t with
        quiet := fun _ => hran
        names := trivial
        waits := trivial
        drains := fun _ _ _ => Or.inl hran
        settles := fun _ _ _ => hran }
  | route hout hp ht =>
    refine h.setProg fun t => (h.at hp t).prog rfl ?_ (route_ne ht).1 trivial
    rintro ⟨r, hr, -⟩
    cases hr
  | here ht => exact h
  | @storeLine c r hout hp =>
    refine h.store hp rfl (Or.inl ⟨rfl, rfl⟩) (fun t => ⟨(h.at hp t).names, ?_⟩) fun _ => trivial
    rintro rfl
    rw [set2_self]
  | @storeOp c r hout hp =>
    refine h.store hp rfl (Or.inl ⟨rfl, rfl⟩) (fun t => ⟨(h.at hp t).names.1, ?_⟩) fun _ => trivial
    rintro rfl
    rw [set2_self]
    exact ⟨(h.at hp r.owner).names.2 rfl, rfl⟩
  | @storeSeq c r hout hp =>
    refine h.store hp rfl (Or.inr ⟨rfl, rfl, fun hc => hc (List.mem_finRange _)⟩) (fun t => ?_) fun _ => trivial
    rintro r' hr'
    cases hr'
    refine ⟨decide_eq_true rfl, (h.at hp t).names.1, ?_⟩
    rintro rfl
    rw [set2_self]
    exact (h.at hp r.owner).names.2 rfl
  | service hq => exact h.start hq
  | @load t i rest owed hq =>
    refine h.server (fun _ _ _ => rfl) (fun u d hu => set2_of_ne fun hc => hu hc.1) (fun _ _ _ => rfl) fun c => ?_
    dsimp only
    by_cases hc : c = i
    · subst hc
      rw [set2_self]
      exact (h.in hq c).load (hb c t)
    · rw [set2_of_ne fun hh => hc hh.2]
      refine (h.in hq c).pass (fun seq hm => by cases hm) trivial fun ha => Or.inr ?_
      have ha : owed = true := ha
      simp [Pass.Ahead, ha]
  | fence hq =>
    exact h.setPass fun c => (h.in hq c).pass (fun seq hm => by cases hm) trivial fun _ => Or.inr (List.mem_finRange c)
  | fetch hq =>
    refine h.setPass fun c => (h.in hq c).fetch ?_ ?_
    · rintro rfl
      rfl
    · rintro rfl
      exact Iff.rfl
  | @fetchLine t i seq rest hq =>
    refine h.setPass fun c => (h.in hq c).pass (h.in hq c).mid ?_ Or.inr
    rintro rfl
    rfl
  | @fetchOp t i seq line rest hq =>
    refine h.setPass fun c => (h.in hq c).pass (h.in hq c).mid ?_ Or.inr
    rintro rfl
    exact ⟨(h.in hq i).read rfl, rfl⟩
  | perform hq => exact h.setPass fun c => (h.in hq c).pass (h.in hq c).mid trivial Or.inr
  | @storeRan t i seq rest hq =>
    refine h.server (fun _ _ _ => rfl) (fun _ _ _ => rfl) (fun u d hu => set2_of_ne fun hc => hu hc.1) fun c => ?_
    refine (h.in hq c).storeRan ?_
    dsimp only
    by_cases hc : i = c
    · subst hc
      rw [set2_self, if_pos rfl]
    · rw [set2_of_ne fun hh => hc hh.2.symm, if_neg hc]
  | drained hq =>
    refine h.setPass fun c => (h.in hq c).pass (fun seq hm => by cases hm) trivial fun ha => ?_
    cases ha
  | @answer t i rest hq hword =>
    refine h.server (fun u d hu => set2_of_ne fun hc => hu hc.1) (fun _ _ _ => rfl) (fun _ _ _ => rfl) fun c => ?_
    by_cases hc : c = i
    · subst hc
      rw [set2_self]
      exact (h.in hq c).publish
    · rw [set2_of_ne fun hh => hc hh.2]
      exact (h.in hq c).pass (fun seq hm => by cases hm) trivial fun ha => ha.elim
  | answered hq hword => exact h.setPass fun c => (h.in hq c).pass (fun seq hm => by cases hm) trivial fun ha => ha.elim
  | idle hq =>
    refine h.setPass fun c => (h.in hq c).pass (fun seq hm => by cases hm) trivial fun ha => ?_
    cases ha
  | finish hq => exact h.setPass fun c => (h.in hq c).pass (fun seq hm => by cases hm) trivial fun ha => ha.elim

end Doorbell
end KickOS
