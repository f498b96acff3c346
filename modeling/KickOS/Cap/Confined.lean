import KickOS.Cap.Origin

/-! Badges confine.

A badged endpoint capability carries no right but to signal and to transfer, so its holders can neither mint another
badge nor be handed the right to wait; a spawn copies the badge with the grant. So a group whose capabilities on an
endpoint all carry one badge keeps it through everything its members do and spawn, as long as the endpoint lives and
is not published; and a message of theirs that no receiver waited for stays parked with it until a receive shows it. -/

namespace KickOS
namespace Cap
open CapTable

variable {s s' : Kernel} {t c u child : Tid} {i j obj b : Nat} {e : Eid} {x x₀ : CapEntry} {seat : Option Nat}
  {type : CapType} {rights : Rights} {S T : Set Tid}

/-- Every endpoint capability with a badge can signal and be transferred, and nothing more. -/
def Badged (s : Kernel) : Prop := ∀ t i x, s.holding t i = some x → x.type = .endpoint → x.badge ≠ kcapBadgeNone →
  x.rights.wait = false ∧ x.rights.handout = false

/-- The capabilities of the group on endpoint `e` all carry badge `b`. -/
def Confined (s : Kernel) (S : Set Tid) (e : Eid) (b : Nat) : Prop :=
  ∀ t ∈ S, ∀ i x, s.holding t i = some x → s.Names x e → x.badge = b

theorem no_wider {r₀ r : Rights} (hw : r₀.wait = false) (hh : r₀.handout = false) (h1 : r.handout = true → r₀.handout = true)
    (h2 : r₀.handout = false → r.wait = true → r₀.wait = true) : r.wait = false ∧ r.handout = false := by
  refine ⟨Bool.eq_false_iff.mpr fun h => ?_, Bool.eq_false_iff.mpr fun h => ?_⟩
  · rw [h2 hh h] at hw
    exact absurd hw (by decide)
  · rw [h1 h] at hh
    exact absurd hh (by decide)

theorem Less.badged (h : Less seat s s') (hb : Badged s) : Badged s' := by
  intro t i x hx hty hbadge
  rcases h.entry t i x hx hty with ⟨x₀, hx₀, hc⟩ | ⟨h0, -⟩
  · obtain ⟨hw, hh⟩ := hb t i x₀ hx₀ (hc.type ▸ hty) (hc.badge ▸ hbadge)
    exact no_wider hw hh hc.handout hc.wait
  · exact absurd h0 hbadge

theorem names_of_shrinks (hp : Shrinks s.endpoints s'.endpoints) (hn : s'.Names x e) : s.Names x e := by
  obtain ⟨hty, hlive, hidx⟩ := hn
  obtain ⟨h1, h2⟩ := hp.liveIndex hidx
  refine ⟨hty, ?_, h1⟩
  simp only [Kernel.capObjLive, Kernel.capObjGeneration, hty, decide_eq_true_eq] at hlive ⊢
  rw [← h2]
  exact hlive

theorem names_copy (hc : Copies x₀ x) (hn : s.Names x e) : s.Names x₀ e := by
  obtain ⟨hty, hlive, hidx⟩ := hn
  refine ⟨hc.type ▸ hty, ?_, hc.obj ▸ hidx⟩
  simp only [Kernel.capObjLive, hc.type, hc.obj, hc.objGen] at hlive
  exact hlive

theorem Less.confined (h : Less seat s s') (hs : ∀ o, seat = some o → s'.endpoints.liveIndex o ≠ some e)
    (hc : Confined s S e b) : Confined s' S e b := by
  intro t ht i x hx hn
  rcases h.entry t i x hx hn.1 with ⟨x₀, hx₀, hcp⟩ | ⟨-, hseat⟩
  · rw [hcp.badge]
    exact hc t ht i x₀ hx₀ (names_copy hcp (names_of_shrinks h.pool hn))
  · exact absurd hn.2.2 (hs _ hseat)

/-- The threads of `M` have last parked a message with badge `b`. -/
def Sent (s : Kernel) (M : Set Tid) (b : Nat) : Prop := ∀ t ∈ M, (s.thr t).ipc.badge = b

theorem marked_confined {b' : Nat} (hc : Confined s S e b) : Confined (marked s c b') S e b := by
  intro t ht i x hx hn
  rw [marked_holding] at hx
  have hp : Shrinks s.endpoints (marked s c b').endpoints := .refl _
  exact hc t ht i x hx (names_of_shrinks hp hn)

/-! ### Seating a capability -/

def Seatable (s : Kernel) (c : Tid) (i : Nat) : Prop :=
  capFirstDynamic ≤ i ∧ i < (s.thr c).caps.width ∧ ((s.thr c).caps.slots i).type = .empty

theorem seat_holding {g : Nat} (ht : Tabled s) (hi : Seatable s c i) (hty : type ≠ .empty)
    (hcaps : ∀ t, (s'.thr t).caps = if t = c then capInstallAt (s.thr c).caps i obj g type rights b else (s.thr t).caps) :
    Tabled s' ∧ ∀ t j, s'.holding t j =
      if t = c ∧ j = i then some (seatedEntry (s.thr c).caps i obj g type rights b) else s.holding t j := by
  obtain ⟨hlo, hw, he⟩ := hi
  obtain ⟨q, hq⟩ := ht c
  have hi : i ∈ q := (hq.mem i).2 ⟨hlo, hw, he⟩
  refine ⟨fun t => ?_, fun t j => ?_⟩
  · rw [hcaps]
    split_ifs
    · exact ⟨_, hq.installAt hi hty⟩
    · exact ht t
  · unfold Kernel.holding
    rw [hcaps]
    by_cases hc : t = c
    · subst hc
      rw [if_pos rfl, installAt_width hlo hw, hq.installAt_live hi hty]
      by_cases hji : j = i
      · subst hji; simp [hw]
      · simp [hji]
    · simp [hc]

theorem installAt_caps (t : Tid) : ((s.installAt c i obj type rights b).thr t).caps = if t = c then
    capInstallAt (s.thr c).caps i obj (s.capObjGeneration type obj) type rights b else (s.thr t).caps := by
  unfold Kernel.installAt
  rw [onCaps_caps]
  rfl

theorem installAt_badge (t : Tid) : ((s.installAt c i obj type rights b).thr t).ipc.badge = (s.thr t).ipc.badge := by
  unfold Kernel.installAt
  exact onCaps_badge t

theorem peek_seatable (ht : Tabled s) (h : capRunPeekFree (s.thr c).caps.freeHead = some i) : Seatable s c i := by
  obtain ⟨q, hq⟩ := ht c
  rw [hq.peek] at h
  exact (hq.mem i).1 (List.mem_of_mem_head? h)

theorem install_cases (c : Tid) (obj : Nat) (type : CapType) (rights : Rights) (ht : Tabled s) :
    ((s.install c obj type rights).2 = .error .emfile ∧ Kept s (s.install c obj type rights).1) ∨
      ∃ i cap, Seatable s c i ∧ (s.install c obj type rights).2 = .ok cap ∧
        ∀ t, ((s.install c obj type rights).1.thr t).caps = if t = c then
          capInstallAt (s.thr c).caps i obj (s.capObjGeneration type obj) type rights kcapBadgeNone
          else (s.thr t).caps := by
  unfold Kernel.install capInstall
  rcases hpeek : capRunPeekFree (s.thr c).caps.freeHead with _ | i
  · exact .inl ⟨rfl, Kept.onThr (t := c) (f := fun x => { x with caps := (s.thr c).caps }) rfl⟩
  · refine .inr ⟨i, _, peek_seatable ht hpeek, rfl, fun t => ?_⟩
    dsimp only
    rw [onCaps_caps]

/-! ### Creating and badging -/

/-- What a step does that seats one capability: everything else was there. -/
structure Seats (s s' : Kernel) (c : Tid) (i : Nat) (y : CapEntry) : Prop where
  tabled : Tabled s'
  entry : ∀ t j x, s'.holding t j = some x → (t = c ∧ j = i ∧ x = y) ∨ s.holding t j = some x

theorem seats_of_caps {g : Nat} (ht : Tabled s) (hi : Seatable s c i) (hty : type ≠ .empty)
    (hcaps : ∀ t, (s'.thr t).caps = if t = c then capInstallAt (s.thr c).caps i obj g type rights b else (s.thr t).caps) :
    Seats s s' c i (seatedEntry (s.thr c).caps i obj g type rights b) := by
  obtain ⟨h1, h2⟩ := seat_holding ht hi hty hcaps
  refine ⟨h1, fun t j x hx => ?_⟩
  rw [h2] at hx
  split_ifs at hx with hc
  · exact .inl ⟨hc.1, hc.2, (Option.some.inj hx).symm⟩
  · exact .inr hx

theorem Seats.badged {y : CapEntry} (h : Seats s s' c i y) (hb : Badged s)
    (hy : y.type = .endpoint → y.badge ≠ kcapBadgeNone → y.rights.wait = false ∧ y.rights.handout = false) : Badged s' := by
  intro t j x hx hty hbadge
  rcases h.entry t j x hx with ⟨-, -, rfl⟩ | hold
  · exact hy hty hbadge
  · exact hb t j x hold hty hbadge

theorem Seats.confined {y : CapEntry} (h : Seats s s' c i y) (hp : Shrinks s.endpoints s'.endpoints)
    (hc : Confined s S e b) (hy : c ∈ S → s'.Names y e → y.badge = b) : Confined s' S e b := by
  intro t ht j x hx hn
  rcases h.entry t j x hx with ⟨rfl, -, rfl⟩ | hold
  · exact hy ht hn
  · exact hc t ht j x hold (names_of_shrinks hp hn)

theorem capResolve_ok {cap : Nat} {need : Rights} (h : s.capResolve c cap .endpoint need = .ok e) :
    ∃ x, s.holding c (capIndex cap) = some x ∧ (s.thr c).caps.slots (capIndex cap) = x ∧ s.Names x e ∧
      x.rights.has need = true := by
  unfold Kernel.capResolve at h
  rcases hl : capLookup (s.thr c).caps cap with _ | idx
  · rw [hl] at h
    exact absurd h (by simp)
  have hidx : capIndex cap = idx := by
    unfold capLookup at hl
    dsimp only at hl
    split_ifs at hl
    exact Option.some.inj hl
  have hhold := capLookup_holding hl
  rw [hl] at h
  dsimp only at h
  split_ifs at h with h1 h2 h3
  rcases hi : s.endpoints.liveIndex ((s.thr c).caps.slots idx).obj with _ | k
  · rw [hi] at h
    exact absurd h (by simp)
  · rw [hi] at h
    cases h
    rw [hidx]
    exact ⟨_, hhold, rfl, ⟨not_not.mp h1, Bool.eq_true_of_not_eq_false h3, hi⟩, Bool.eq_true_of_not_eq_false h2⟩

/-- `endpoint_badge` leaves everything, or seats a copy with the badge beside an entry with the handout right. -/
theorem endpointBadge_cases (c : Tid) (src value : Nat) (ht : Tabled s) :
    Kept s (s.endpointBadge c src value).1 ∨ ∃ s₁ i j x₀ y e, Kept s s₁ ∧ s.holding c j = some x₀ ∧ s.Names x₀ e ∧
      x₀.rights.handout = true ∧ Seats s₁ (s.endpointBadge c src value).1 c i y ∧
      (s.endpointBadge c src value).1.endpoints = s₁.endpoints ∧ y.obj = x₀.obj ∧
      y.rights.wait = false ∧ y.rights.handout = false := by
  unfold Kernel.endpointBadge
  by_cases hv : value = kcapBadgeNone
  · rw [if_pos hv]
    exact .inl (.refl s)
  rw [if_neg hv]
  rcases hres : s.capResolve c src .endpoint { signal := true, handout := true } with err | e
  · exact .inl (.refl s)
  obtain ⟨x₀, hhold, hslot, hn, hrights⟩ := capResolve_ok hres
  have hhand : x₀.rights.handout = true := by
    simp only [Rights.has, Rights.inter, decide_eq_true_eq, Rights.mk.injEq, Bool.and_true] at hrights
    exact hrights.2.2.2
  dsimp only
  rw [hslot]
  rcases hinc : s.objRefInc .endpoint x₀.obj (x₀.rights.inter { signal := true, transfer := true }) with _ | s₁
  · exact .inl (.refl s)
  have hk := Kept.objRefInc hinc
  have ht₁ : Tabled s₁ := fun t => by rw [hk.caps]; exact ht t
  dsimp only
  rcases hpeek : capRunPeekFree (s₁.thr c).caps.freeHead with _ | i
  · have hu : Kept s₁ (s₁.objRefUndo .endpoint x₀.obj (x₀.rights.inter { signal := true, transfer := true })) := .objRefUndo
    exact .inl (hk.trans hu)
  refine .inr ⟨s₁, i, _, x₀, _, e, hk, hhold, hn, hhand,
    seats_of_caps ht₁ (peek_seatable ht₁ hpeek) (by decide) installAt_caps, rfl, rfl, ?_, ?_⟩
  · exact Bool.and_false _
  · exact Bool.and_false _

theorem badge_step (c : Tid) (src value : Nat) (ht : Tabled s) (hb : Badged s) (hbne : b ≠ kcapBadgeNone)
    (hc : Confined s S e b) : Tabled (s.endpointBadge c src value).1 ∧
    Shrinks s.endpoints (s.endpointBadge c src value).1.endpoints ∧ Badged (s.endpointBadge c src value).1 ∧
    Confined (s.endpointBadge c src value).1 S e b := by
  rcases endpointBadge_cases c src value ht with
    hk | ⟨s₁, i, j, x₀, y, e', hk, hhold, hn₀, hhand, hseat, hpool, hobj, hw, hh⟩
  · have hl : Less none s _ := .of_kept ht hk
    exact ⟨hl.tabled, hl.pool, hl.badged hb, hl.confined (by simp) hc⟩
  · have hl : Less none s s₁ := .of_kept ht hk
    refine ⟨hseat.tabled, by rw [hpool]; exact hk.pool, hseat.badged (hl.badged hb) fun _ _ => ⟨hw, hh⟩, ?_⟩
    refine hseat.confined (by rw [hpool]; exact .refl _) (hl.confined (by simp) hc) fun hcS hn => ?_
    -- the source would be on the same endpoint, and badged entries have no handout right
    have hn' : s.Names x₀ e := by
      refine ⟨hn₀.1, hn₀.2.1, ?_⟩
      rw [← hobj]
      exact ((by rw [hpool]; exact hk.pool : Shrinks s.endpoints _).liveIndex hn.2.2).1
    have hbadge := hc c hcS j x₀ hhold hn'
    obtain ⟨-, hno⟩ := hb c j x₀ hhold hn₀.1 (by rw [hbadge]; exact hbne)
    rw [hhand] at hno
    exact absurd hno (by decide)

/-- The handles of the pool have room for its slots. -/
def Pooled (p : Pool) : Prop := p.count ≤ 2 ^ 16 ∧ ∀ i ∈ p.free, i < p.count

theorem Shrinks.pooled {p p' : Pool} (h : Shrinks p p') (hp : Pooled p) : Pooled p' := by
  refine ⟨h.count ▸ hp.1, fun i hi => ?_⟩
  rw [h.count]
  rcases h.free i hi with h1 | h1
  · exact hp.2 i h1
  · exact h1

theorem claim_some {p p' : Pool} {k : Nat} (h : p.claim = some (k, p')) (hp : Pooled p) :
    Pooled p' ∧ k < p.count ∧ p'.count = p.count ∧ p'.gen = p.gen ∧ ∀ i ≠ k, p'.Live i → p.Live i := by
  unfold Pool.claim at h
  split_ifs at h with hf
  · obtain ⟨rfl, rfl⟩ := Prod.mk.inj (Option.some.inj h)
    refine ⟨hp, hf, rfl, rfl, fun i hi hl => ⟨?_, hl.2⟩⟩
    have := hl.1
    simp only at this
    omega
  · rcases hfree : p.free with _ | ⟨j, rest⟩
    · rw [hfree] at h
      exact absurd h (by simp)
    · rw [hfree] at h
      obtain ⟨rfl, rfl⟩ := Prod.mk.inj (Option.some.inj h)
      have hmem : ∀ i ∈ j :: rest, i < p.count := by rw [← hfree]; exact hp.2
      refine ⟨⟨hp.1, fun i hi => hmem i (List.mem_cons_of_mem _ hi)⟩, hmem j List.mem_cons_self, rfl, rfl,
        fun i hi hl => ⟨hl.1, ?_⟩⟩
      rw [hfree, List.mem_cons]
      rintro (rfl | h1)
      · exact hi rfl
      · exact hl.2 h1

theorem claim_names {p' : Pool} {k : Nat} (h : s.endpoints.claim = some (k, p')) (hp : Pooled s.endpoints)
    (hk : e ≠ k) (hs : Shrinks p' s'.endpoints) (hn : s'.Names x e) : s.Names x e := by
  obtain ⟨-, -, hcount, hgen, hlive⟩ := claim_some h hp
  obtain ⟨hty, hl, hidx⟩ := hn
  obtain ⟨h1, h2⟩ := hs.liveIndex hidx
  have h3 : s.endpoints.liveIndex x.obj = some e := by
    unfold Pool.liveIndex at h1 ⊢
    dsimp only at h1 ⊢
    split_ifs at h1 with hc
    cases h1
    rw [hcount, hgen] at hc
    rw [if_pos ⟨hc.1, hlive _ hk hc.2.1, hc.2.2⟩]
  refine ⟨hty, ?_, h3⟩
  simp only [Kernel.capObjLive, Kernel.capObjGeneration, hty, decide_eq_true_eq] at hl ⊢
  rw [← hl, h2]
  simp only [Pool.generation, hcount, hgen]

theorem liveIndex_handleFor {p : Pool} {k g : Nat} (hk : k < 2 ^ 16) (h : p.liveIndex (handlePack g k) = some e) : e = k := by
  have hidx : handleIndex (handlePack g k) = k := by
    simp only [handleIndex, handlePack]
    omega
  unfold Pool.liveIndex at h
  dsimp only at h
  split_ifs at h
  exact (Option.some.inj h).symm.trans hidx

theorem create_step (c : Tid) (admitted : Bool) (ht : Tabled s) (hp : Pooled s.endpoints) (hb : Badged s) :
    Tabled (s.endpointCreate c admitted).1 ∧ Pooled (s.endpointCreate c admitted).1.endpoints ∧
      Badged (s.endpointCreate c admitted).1 ∧ ∀ S e b, (Op.create c admitted).claims s ≠ some e →
        Confined s S e b → Confined (s.endpointCreate c admitted).1 S e b := by
  unfold Kernel.endpointCreate
  rcases admitted with _ | _
  · exact ⟨ht, hp, hb, fun _ _ _ _ hc => hc⟩
  rw [if_neg (by decide)]
  rcases hcl : s.endpoints.claim with _ | ⟨k, p'⟩
  · exact ⟨ht, hp, hb, fun _ _ _ _ hc => hc⟩
  have hne : ∀ e, (Op.create c true).claims s ≠ some e → e ≠ k := by
    rintro e hnew rfl
    exact hnew (by simp [Op.claims, hcl])
  obtain ⟨hp', hlt, hcount, hgen, -⟩ := claim_some hcl hp
  dsimp only
  set s₁ : Kernel := { s with endpoints := p'.setRefs k 1 }.onEp k fun _ => { recvHolders := 1, handoutHolders := 1 } with hs₁
  have ht₁ : Tabled s₁ := ht
  have hb₁ : Badged s₁ := hb
  have hsh : Shrinks p' s₁.endpoints := .setRefs
  have hcases := install_cases c (s₁.endpoints.handleFor k) .endpoint Rights.all ht₁
  have hpool : (s₁.install c (s₁.endpoints.handleFor k) .endpoint Rights.all).1.endpoints = s₁.endpoints := rfl
  rcases hres : s₁.install c (s₁.endpoints.handleFor k) .endpoint Rights.all with ⟨s₂, r⟩
  rw [hres] at hcases hpool
  rcases hcases with ⟨rfl, hkept⟩ | ⟨i, cap, hi, rfl, hcaps⟩
  · have hl : Less none s₁ s₂ := .of_kept ht₁ hkept
    have hshr : Shrinks p' ((s₂.endpoints.setRefs k 0).release (s₁.endpoints.handleFor k)) := by
      rw [hpool]
      exact hsh.trans (Shrinks.setRefs.trans .release)
    refine ⟨hl.tabled, hshr.pooled hp', hl.badged hb₁, fun S e b hnew hc t htS j x hx hn => ?_⟩
    have hk := hne e hnew
    have hx' : s.holding t j = some x := by
      rw [← hx]
      exact (congrFun (congrFun hkept.holding t) j).symm
    exact hc t htS j x hx' (claim_names hcl hp hk hshr hn)
  · have hseat := seats_of_caps ht₁ hi (by decide) hcaps
    have hshr : Shrinks p' s₂.endpoints := by
      rw [hpool]
      exact hsh
    refine ⟨hseat.tabled, hshr.pooled hp', hseat.badged hb₁ fun _ h => absurd rfl h, fun S e b hnew hc t htS j x hx hn => ?_⟩
    have hk := hne e hnew
    rcases hseat.entry t j x hx with ⟨rfl, rfl, rfl⟩ | hold
    · have hgk : s₁.endpoints.handleFor k = handlePack (s₁.endpoints.gen k) k := rfl
      have h16 : k < 2 ^ 16 := Nat.lt_of_lt_of_le hlt hp.1
      exact absurd (liveIndex_handleFor h16 (hgk ▸ hn.2.2)) hk
    · exact hc t htS j x hold (claim_names hcl hp hk hshr hn)

theorem endpointBadge_badge (c : Tid) (src value : Nat) (t : Tid) :
    ((s.endpointBadge c src value).1.thr t).ipc.badge = (s.thr t).ipc.badge := by
  unfold Kernel.endpointBadge
  split_ifs
  · rfl
  split
  · rfl
  dsimp only
  split
  · rfl
  rename_i hinc
  split
  · exact (Kept.objRefUndo.badge t).trans ((Kept.objRefInc hinc).badge t)
  · exact (installAt_badge t).trans ((Kept.objRefInc hinc).badge t)

theorem endpointCreate_badge (c : Tid) (admitted : Bool) (t : Tid) :
    ((s.endpointCreate c admitted).1.thr t).ipc.badge = (s.thr t).ipc.badge := by
  have hinstall : ∀ (k : Kernel) (obj : Nat), ((k.install c obj .endpoint Rights.all).1.thr t).ipc.badge =
      (k.thr t).ipc.badge := fun k obj => by
    exact onCaps_badge (f := fun _ => (capInstall (k.thr c).caps obj _ .endpoint Rights.all).1) t
  unfold Kernel.endpointCreate
  split_ifs
  · rfl
  rcases s.endpoints.claim with _ | ⟨i, p⟩
  · rfl
  dsimp only
  split
  · rename_i hres
    exact (congrArg (fun r => (r.1.thr t).ipc.badge) hres).symm.trans (hinstall _ _)
  · rename_i hres
    exact (congrArg (fun r => (r.1.thr t).ipc.badge) hres).symm.trans (hinstall _ _)

/-! ### Spawning -/

theorem Kept.grantRefs (done seats : List Seat) (s : Kernel) :
    (∀ s₁, Kernel.grantRefs done seats s = .ok s₁ → Kept s s₁) ∧
      ∀ s₁, Kernel.grantRefs done seats s = .error s₁ → Kept s s₁ := by
  induction seats generalizing done s with
  | nil =>
    refine ⟨fun s₁ h => ?_, fun s₁ h => ?_⟩
    · cases h
      exact .refl s
    · exact absurd h (by simp [Kernel.grantRefs])
  | cons g rest ih =>
    have hundo : ∀ (l : List Seat) (k : Kernel), Kept k (l.foldl (fun s g => s.objRefUndo g.type g.obj g.rights) k) := by
      intro l
      induction l with
      | nil => exact fun k => .refl k
      | cons g l ih => exact fun k => Kept.objRefUndo.trans (ih _)
    unfold Kernel.grantRefs
    rcases hinc : s.objRefInc g.type g.obj g.rights with _ | s₂
    · refine ⟨fun s₁ h => absurd h (by simp), fun s₁ h => ?_⟩
      cases h
      exact hundo _ _
    · have hk := Kept.objRefInc hinc
      exact ⟨fun s₁ h => hk.trans ((ih _ s₂).1 s₁ h), fun s₁ h => hk.trans ((ih _ s₂).2 s₁ h)⟩

theorem has_le {a m : Rights} (h : a.has m = true) :
    (m.handout = true → a.handout = true) ∧ (m.wait = true → a.wait = true) := by
  have h' : a.inter m = m := of_decide_eq_true h
  refine ⟨fun hm => ?_, fun hm => ?_⟩
  · rw [← h'] at hm
    exact (Bool.and_eq_true_iff.mp hm).1
  · rw [← h'] at hm
    exact (Bool.and_eq_true_iff.mp hm).1

/-- The grant takes from the spawner's entry `x₀` its object and its badge, and no right but the receive right that
a handout gives. -/
structure Grants (s : Kernel) (x₀ : CapEntry) (g : Seat) : Prop where
  live : s.capObjLive x₀ = true
  type : g.type = x₀.type
  obj : g.obj = x₀.obj
  badge : g.badge = x₀.badge
  handout : g.rights.handout = true → x₀.rights.handout = true
  wait : x₀.rights.handout = false → g.rights.wait = true → x₀.rights.wait = true
  dest : capFirstDynamic ≤ g.dest

theorem grantCheck_ok {ci : Nat} {g : Grant} {seat : Seat} (h : s.grantCheck c ci g = .ok seat) :
    ∃ j x₀, s.holding c j = some x₀ ∧ Grants s x₀ seat := by
  unfold Kernel.grantCheck at h
  rcases hl : capLookup (s.thr c).caps g.cap with _ | idx
  · rw [hl] at h
    exact absurd h (by simp)
  rw [hl] at h
  dsimp only at h
  by_cases h1 : s.capObjLive ((s.thr c).caps.slots idx) = false
  · rw [if_pos h1] at h
    exact absurd h (by simp)
  rw [if_neg h1] at h
  by_cases h2 : ((s.thr c).caps.slots idx).rights.transfer = false
  · rw [if_pos h2] at h
    exact absurd h (by simp)
  rw [if_neg h2] at h
  set grantable := if ((s.thr c).caps.slots idx).type = .endpoint ∧ ((s.thr c).caps.slots idx).rights.handout = true then
    { ((s.thr c).caps.slots idx).rights with wait := true } else ((s.thr c).caps.slots idx).rights with hg
  by_cases h3 : grantable.has g.mask = false
  · rw [if_pos h3] at h
    exact absurd h (by simp)
  rw [if_neg h3] at h
  cases h
  obtain ⟨hhand, hwait⟩ := has_le (Bool.eq_true_of_not_eq_false h3)
  refine ⟨idx, _, capLookup_holding hl, Bool.eq_true_of_not_eq_false h1, rfl, rfl, rfl, fun hm => ?_, fun h0 hm => ?_, ?_⟩
  · have := hhand hm
    rw [hg] at this
    split_ifs at this
    · exact this
    · exact this
  · have := hwait hm
    rw [hg, if_neg (by simp [h0])] at this
    exact this
  · show capFirstDynamic ≤ if g.dest = 0 then capFirstDynamic + ci else g.dest
    split_ifs with h0
    · exact Nat.le_add_right ..
    · exact Nat.pos_of_ne_zero h0

theorem grantChecks_ok (ci : Nat) (l : List Grant) {seats : List Seat} (h : s.grantChecks c ci l = .ok seats) :
    ∀ g ∈ seats, ∃ j x₀, s.holding c j = some x₀ ∧ Grants s x₀ g := by
  induction l generalizing ci seats with
  | nil =>
    cases h
    simp
  | cons g rest ih =>
    unfold Kernel.grantChecks at h
    rcases h1 : s.grantCheck c ci g with err | seat
    · rw [h1] at h
      exact absurd h (by simp)
    rcases h2 : s.grantChecks c (ci + 1) rest with err | tail
    · rw [h1, h2] at h
      exact absurd h (by simp)
    · rw [h1, h2] at h
      cases h
      intro g' hg'
      rcases List.mem_cons.mp hg' with rfl | hmem
      · exact grantCheck_ok h1
      · exact ih _ h2 g' hmem

theorem grants_type_ne_empty {g : Seat} (hx : s.holding c j = some x₀) (hg : Grants s x₀ g) : g.type ≠ .empty := by
  rw [hg.type]
  exact (holding_some_iff.mp hx).2.2

/-- What the grants of a spawn leave in the tables: in the child's, what was there and what they seat. -/
theorem seatGrants_holding (child : Tid) (seats : List Seat) (s : Kernel) (ht : Tabled s) (hty : ∀ g ∈ seats, g.type ≠ .empty)
    (hd : (seats.map Seat.dest).Nodup) (hi : ∀ g ∈ seats, Seatable s child g.dest) :
    Tabled (Kernel.seatGrants child seats s) ∧ (Kernel.seatGrants child seats s).endpoints = s.endpoints ∧
      (Kernel.seatGrants child seats s).stdoutTarget = s.stdoutTarget ∧
      ∀ t j x, (Kernel.seatGrants child seats s).holding t j = some x → s.holding t j = some x ∨
        (t = child ∧ ∃ g ∈ seats, x.type = g.type ∧ x.obj = g.obj ∧ x.badge = g.badge ∧ x.rights = g.rights) := by
  induction seats generalizing s with
  | nil => exact ⟨ht, rfl, rfl, fun _ _ _ hx => .inl hx⟩
  | cons g rest ih =>
    have hg := hi g List.mem_cons_self
    have hcaps : ∀ t, ((s.installAt child g.dest g.obj g.type g.rights g.badge).thr t).caps = if t = child then
        capInstallAt (s.thr child).caps g.dest g.obj (s.capObjGeneration g.type g.obj) g.type g.rights g.badge
        else (s.thr t).caps := installAt_caps
    obtain ⟨h1, h2⟩ := seat_holding ht hg (hty g List.mem_cons_self) hcaps
    obtain ⟨hnot, hd'⟩ := List.nodup_cons.mp hd
    have hi' : ∀ g' ∈ rest, Seatable (s.installAt child g.dest g.obj g.type g.rights g.badge) child g'.dest := by
      intro g' hmem
      obtain ⟨a1, a2, a3⟩ := hi g' (List.mem_cons_of_mem _ hmem)
      have hne : g'.dest ≠ g.dest := fun heq => hnot (heq ▸ List.mem_map_of_mem hmem)
      refine ⟨a1, ?_, ?_⟩
      · rw [installAt_caps, if_pos rfl, installAt_width hg.1 hg.2.1]
        exact a2
      · rw [installAt_caps, if_pos rfl, installAt_type hg.1 hg.2.1, if_neg hne]
        exact a3
    obtain ⟨h3, h4, h5, h6⟩ := ih _ h1 (fun g' hm => hty g' (List.mem_cons_of_mem _ hm)) hd' hi'
    refine ⟨h3, h4, h5, fun t j x hx => ?_⟩
    rcases h6 t j x hx with hold | ⟨rfl, g', hmem, hg'⟩
    · rw [h2] at hold
      split_ifs at hold with hc
      · cases hold
        exact .inr ⟨hc.1, g, List.mem_cons_self, rfl, rfl, rfl, rfl⟩
      · exact .inl hold
    · exact .inr ⟨rfl, g', List.mem_cons_of_mem _ hmem, hg'⟩

theorem capSeatStdout_slots {target : Nat} (h : s.capSeatStdout c target = some s') (t : Tid) :
    (s'.thr t).caps.width = (s.thr t).caps.width ∧ ∀ i, capFirstDynamic ≤ i →
      (s'.thr t).caps.slots i = (s.thr t).caps.slots i := by
  unfold Kernel.capSeatStdout at h
  split_ifs at h
  split at h
  · exact absurd h (by simp)
  · rename_i s₁ hinc
    have hk := Kept.objRefInc hinc
    cases h
    have hseat : ∀ g, ((s₁.onCaps c fun x => x.mapSlot 0 g).thr t).caps.width = (s.thr t).caps.width ∧
        ∀ i, capFirstDynamic ≤ i → ((s₁.onCaps c fun x => x.mapSlot 0 g).thr t).caps.slots i =
          (s.thr t).caps.slots i := by
      intro g
      rw [onCaps_caps, ← hk.caps t]
      split_ifs with hc
      · subst hc
        exact ⟨rfl, fun i hi => mapSlot_slots_ne (Nat.ne_of_gt hi)⟩
      · exact ⟨rfl, fun _ _ => rfl⟩
    split_ifs
    · exact hseat _
    · rw [Kept.objRefDrop.caps]
      exact hseat _

theorem capInstallDefaults_slots (t : Tid) : ((s.capInstallDefaults c).thr t).caps.width = (s.thr t).caps.width ∧
    ∀ i, capFirstDynamic ≤ i → ((s.capInstallDefaults c).thr t).caps.slots i = (s.thr t).caps.slots i := by
  unfold Kernel.capInstallDefaults
  split
  · exact ⟨rfl, fun _ _ => rfl⟩
  · rename_i target _
    rcases hseat : s.capSeatStdout c target with _ | s₁
    · exact ⟨rfl, fun _ _ => rfl⟩
    · exact capSeatStdout_slots hseat t

theorem width_le_max {width : Nat} (h : ¬ kcapWidthMax / kcapChunkSlots < kcapChunksFor width) : width ≤ kcapWidthMax := by
  simp only [kcapWidthMax, kcapChunkSlots, kcapChunksFor] at *
  omega

theorem seatGrants_badge (child : Tid) (seats : List Seat) (s : Kernel) (t : Tid) :
    ((Kernel.seatGrants child seats s).thr t).ipc.badge = (s.thr t).ipc.badge := by
  induction seats generalizing s with
  | nil => rfl
  | cons g rest ih => exact (ih _).trans (installAt_badge t)

theorem spawnSeat_holding (child : Tid) (k : TaskId) (prio authority : Nat) {width : Nat} {chunks rest : List Nat}
    {caps : CapTable} {seats : List Seat} (ht : Tabled s) (hlo : capFirstDynamic ≤ width) (hw : width ≤ kcapWidthMax)
    (hcaps : capSlabAttach chunks width = some (caps, rest)) (hty : ∀ g ∈ seats, g.type ≠ .empty)
    (hd : (seats.map Seat.dest).Nodup) (hi : ∀ g ∈ seats, capFirstDynamic ≤ g.dest ∧ g.dest < caps.width) :
    Tabled (s.spawnSeat child k prio authority caps seats) ∧
      Shrinks s.endpoints (s.spawnSeat child k prio authority caps seats).endpoints ∧
      (s.spawnSeat child k prio authority caps seats).stdoutTarget = s.stdoutTarget ∧
      (∀ t ≠ child, ((s.spawnSeat child k prio authority caps seats).thr t).ipc.badge = (s.thr t).ipc.badge) ∧
      ∀ t j x, (s.spawnSeat child k prio authority caps seats).holding t j = some x → x.type = .endpoint →
        (t ≠ child ∧ ∃ x₀, s.holding t j = some x₀ ∧ Copies x₀ x) ∨
        (x.badge = kcapBadgeNone ∧ s.stdoutTarget = some x.obj) ∨
        (t = child ∧ ∃ g ∈ seats, x.type = g.type ∧ x.obj = g.obj ∧ x.badge = g.badge ∧ x.rights = g.rights) := by
  obtain ⟨hwidth, hempty⟩ := attach_type hcaps
  unfold Kernel.spawnSeat
  dsimp only
  have hthr : ∀ t, ((s.threadCreate child prio k caps).thr t).caps = if t = child then caps else (s.thr t).caps := by
    intro t
    by_cases hc : t = child
    · subst hc; simp [Kernel.threadCreate, Kernel.setThr, Kernel.onTask]
    · simp [Kernel.threadCreate, Kernel.setThr, Kernel.onTask, hc]
  have hmsg : ∀ t, ((s.threadCreate child prio k caps).thr t).ipc.badge = if t = child then 0 else (s.thr t).ipc.badge := by
    intro t
    by_cases hc : t = child
    · subst hc; simp [Kernel.threadCreate, Kernel.setThr, Kernel.onTask]
    · simp [Kernel.threadCreate, Kernel.setThr, Kernel.onTask, hc]
  -- the slot's last message goes with the thread that parked it
  have h1 : Less s.stdoutTarget (marked s child 0) (s.threadCreate child prio k caps) := by
    refine .of_table (c := child) (f := caps) (marked_tabled ht) (.refl _) (fun t => ?_) (fun t => ?_)
      ⟨_, (exact_attach hlo hw hcaps).toFreeList⟩ fun i x _ hx => ?_
    · rw [hthr, marked_caps]
    · rw [hmsg, marked_badge]
    · rw [CapTable.live, if_pos (hempty i)] at hx
      exact absurd hx (by simp)
  have hnone : ∀ j, (s.threadCreate child prio k caps).holding child j = none := by
    intro j
    simp [Kernel.holding, hthr, CapTable.live, hempty j]
  obtain ⟨h2, h3⟩ := Less.capInstallDefaults (c := child) h1.tabled
  have hslots := capInstallDefaults_slots (s := s.threadCreate child prio k caps) (c := child) child
  set s₂ := (s.threadCreate child prio k caps).capInstallDefaults child with hs₂
  have h4 : Kept s₂ (s₂.capSeatAuthority child authority) := .onThr rfl
  have ht₃ : Tabled (s₂.capSeatAuthority child authority) := fun t => by rw [h4.caps]; exact h2.tabled t
  have hseat : ∀ g ∈ seats, Seatable (s₂.capSeatAuthority child authority) child g.dest := by
    intro g hg
    obtain ⟨a1, a2⟩ := hi g hg
    unfold Seatable
    rw [h4.caps, hslots.1, hslots.2 _ a1, hthr, if_pos rfl]
    exact ⟨a1, a2, hempty _⟩
  obtain ⟨h5, h6, h7, h8⟩ := seatGrants_holding child seats _ ht₃ hty hd hseat
  have hbadge : ∀ t ≠ child, ((Kernel.seatGrants child seats (s₂.capSeatAuthority child authority)).thr t).ipc.badge =
      (s.thr t).ipc.badge := fun t hne => by
    rw [seatGrants_badge, h4.badge, h2.badge, hmsg, if_neg hne]
  refine ⟨h5, by rw [h6]; exact h1.pool.trans (h2.pool.trans h4.pool), h7.trans (h4.stdout.trans h3), hbadge,
    fun t j x hx hxe => ?_⟩
  rcases h8 t j x hx with hold | hgrant
  · rw [h4.holding] at hold
    rcases h2.entry t j x hold hxe with ⟨x₁, hx₁, hc₁⟩ | hout
    · have hne : t ≠ child := by
        rintro rfl
        rw [hnone] at hx₁
        exact absurd hx₁ (by simp)
      rcases h1.entry t j x₁ hx₁ (hc₁.type ▸ hxe) with ⟨x₀, hx₀, hc₀⟩ | ⟨hb, ho⟩
      · rw [marked_holding] at hx₀
        exact .inl ⟨hne, x₀, hx₀, hc₀.trans hc₁⟩
      · exact .inr (.inl ⟨hc₁.badge.trans hb, ho.trans (congrArg some hc₁.obj.symm)⟩)
    · exact .inr (.inl hout)
  · exact .inr (.inr hgrant)

theorem spawnSeat_authority {k : TaskId} {prio authority : Nat} {caps : CapTable} {seats : List Seat} :
    ((s.spawnSeat child k prio authority caps seats).thr child).authority = authority &&& Kernel.capAuthAll := by
  have hseats : ∀ (l : List Seat) (k : Kernel), ((Kernel.seatGrants child l k).thr child).authority =
      (k.thr child).authority := by
    intro l
    induction l with
    | nil => exact fun k => rfl
    | cons g l ih =>
      intro k
      refine (ih _).trans ?_
      simp [Kernel.installAt, Kernel.onCaps, Kernel.onThr, Kernel.setThr, Kernel.assert]
  unfold Kernel.spawnSeat
  refine (hseats _ _).trans ?_
  simp [Kernel.capSeatAuthority, Kernel.onThr, Kernel.setThr]

theorem authority_subset {authority : Nat} (h : s.spawnAuthorityAdmit c authority = .ok ()) :
    (authority &&& Kernel.capAuthAll) &&& (s.thr c).authority = authority &&& Kernel.capAuthAll := by
  unfold Kernel.spawnAuthorityAdmit at h
  split_ifs at h with h1 h2 h3
  · simp [h1]
  · have h4 : authority &&& Kernel.capAuthAll = authority := not_not.mp h2
    have h5 : (s.thr c).authority &&& authority = authority := by
      simpa [Kernel.capCheckAuthority] using h3
    rw [h4, Nat.and_comm]
    exact h5

/-- What a spawn leaves: nothing new where it refuses; else a child whose capabilities are copies of its spawner's or
the standard output seat. -/
structure Spawned (s : Kernel) (c child : Tid) (r : Kernel × Answer) : Prop where
  tabled : Tabled r.1
  pool : Shrinks s.endpoints r.1.endpoints
  stdout : r.1.stdoutTarget = s.stdoutTarget
  entry : ∀ t j x, r.1.holding t j = some x → x.type = .endpoint →
    ((r.2.isOk = true → t ≠ child) ∧ ∃ x₀, s.holding t j = some x₀ ∧ Copies x₀ x) ∨
    (x.badge = kcapBadgeNone ∧ s.stdoutTarget = some x.obj) ∨
    (r.2.isOk = true ∧ t = child ∧ ∃ i x₀ g, s.holding c i = some x₀ ∧ Grants s x₀ g ∧ x.type = g.type ∧
      x.obj = g.obj ∧ x.badge = g.badge ∧ x.rights = g.rights)
  authority : r.2.isOk = true → (r.1.thr child).authority &&& (s.thr c).authority = (r.1.thr child).authority
  badge : ∀ t, (r.2.isOk = true → t ≠ child) → (r.1.thr t).ipc.badge = (s.thr t).ipc.badge

theorem Spawned.refused {err : Errno} (ht : Tabled s) (h : Kept s s') : Spawned s c child (s', .error err) := by
  have hl : Less none s s' := .of_kept ht h
  refine ⟨hl.tabled, hl.pool, h.stdout, fun t j x hx hty => ?_, fun hok => absurd hok (by simp [Except.isOk, Except.toBool]),
    fun t _ => h.badge t⟩
  rcases hl.entry t j x hx hty with hc | ⟨-, hno⟩
  · exact .inl ⟨fun hok => absurd hok (by simp [Except.isOk, Except.toBool]), hc⟩
  · exact absurd hno (by simp)

theorem spawned_spawn {k : TaskId} {prio width authority : Nat} {grants : List Grant} {chunks : List Nat}
    {driver admitted grantsAdmitted : Bool} (ht : Tabled s) :
    Spawned s c child (s.spawn c child k prio width authority grants chunks driver admitted grantsAdmitted) := by
  unfold Kernel.spawn
  rcases hauth : s.spawnAuthorityAdmit c authority with err | _
  · exact .refused ht (.refl s)
  dsimp only
  by_cases h1 : Kernel.maxSpawnGrants < grants.length
  · rw [if_pos h1]
    exact .refused ht (.refl s)
  rw [if_neg h1]
  rcases hchecks : s.grantChecks c 0 grants with err | seats
  · exact .refused ht (.refl s)
  dsimp only
  by_cases h2 : ¬ (seats.map Seat.dest).Nodup
  · rw [if_pos h2]
    exact .refused ht (.refl s)
  rw [if_neg h2]
  by_cases h3 : (s.task k).ended = true
  · rw [if_pos h3]
    exact .refused ht (.refl s)
  rw [if_neg h3]
  by_cases h4 : width < capFirstDynamic + grants.length
  · rw [if_pos h4]
    exact .refused ht (.refl s)
  rw [if_neg h4]
  by_cases h5 : admitted = false
  · rw [if_pos h5]
    exact .refused ht (.refl s)
  rw [if_neg h5]
  by_cases h6 : kcapWidthMax / kcapChunkSlots < kcapChunksFor width
  · rw [if_pos h6]
    exact .refused ht (.refl s)
  rw [if_neg h6]
  by_cases h7 : s.claimable child = false
  · rw [if_pos h7]
    exact .refused ht (.refl s)
  rw [if_neg h7]
  rcases hcaps : capSlabAttach chunks width with _ | ⟨caps, rest⟩
  · exact .refused ht (.refl s)
  dsimp only
  by_cases h8 : (seats.any fun g => caps.width ≤ g.dest) = true
  · rw [if_pos h8]
    exact .refused ht (.refl s)
  rw [if_neg h8]
  by_cases h9 : grantsAdmitted = false
  · rw [if_pos h9]
    exact .refused ht (.refl s)
  rw [if_neg h9]
  rcases hrefs : Kernel.grantRefs [] seats s with s₁ | s₁
  · exact .refused ht ((Kept.grantRefs [] seats s).2 s₁ hrefs)
  have hk := (Kept.grantRefs [] seats s).1 s₁ hrefs
  have hgrants := grantChecks_ok 0 grants hchecks
  have ht₁ : Tabled s₁ := fun t => by rw [hk.caps]; exact ht t
  have hdest : ∀ g ∈ seats, capFirstDynamic ≤ g.dest ∧ g.dest < caps.width := by
    intro g hg
    obtain ⟨_, _, _, hgr⟩ := hgrants g hg
    refine ⟨hgr.dest, Nat.lt_of_not_le fun hle => h8 ?_⟩
    exact List.any_eq_true.mpr ⟨g, hg, decide_eq_true hle⟩
  have htype : ∀ g ∈ seats, g.type ≠ .empty := by
    intro g hg
    obtain ⟨_, _, hx, hgr⟩ := hgrants g hg
    exact grants_type_ne_empty hx hgr
  obtain ⟨a1, a2, a3, a5, a4⟩ := spawnSeat_holding child k prio authority ht₁
    (by simp only [capFirstDynamic] at h4 ⊢; omega) (width_le_max h6) hcaps htype (not_not.mp h2) hdest
  dsimp only
  -- starting the child changes no table
  have hstart : (if driver then s₁.spawnSeat child k prio authority caps seats
      else (s₁.spawnSeat child k prio authority caps seats).makeReady child).tables =
        (s₁.spawnSeat child k prio authority caps seats).tables := Kernel.ite_tables rfl Kernel.makeReady_tables
  have hd := Kept.of_tables hstart
  refine ⟨fun t => ?_, ?_, ?_, fun t j x hx hty => ?_, fun _ => ?_, fun t hne => ?_⟩
  · rw [hd.caps]
    exact a1 t
  · exact hk.pool.trans (a2.trans hd.pool)
  · exact hd.stdout.trans (a3.trans hk.stdout)
  · rw [hd.holding] at hx
    rcases a4 t j x hx hty with ⟨hne, hc⟩ | hout | ⟨rfl, g, hg, hx'⟩
    · rw [hk.holding] at hc
      exact .inl ⟨fun _ => hne, hc⟩
    · rw [hk.stdout] at hout
      exact .inr (.inl hout)
    · obtain ⟨i, x₀, hx₀, hgr⟩ := hgrants g hg
      exact .inr (.inr ⟨rfl, rfl, i, x₀, g, hx₀, hgr, hx'⟩)
  · show ((if driver then s₁.spawnSeat child k prio authority caps seats
      else (s₁.spawnSeat child k prio authority caps seats).makeReady child).thr child).authority &&& _ = _
    rw [Kernel.authority_of_tables hstart, spawnSeat_authority]
    exact authority_subset hauth
  · exact (hd.badge t).trans ((a5 t (hne rfl)).trans (hk.badge t))

theorem Spawned.badged {r : Kernel × Answer} (h : Spawned s c child r) (hb : Badged s) : Badged r.1 := by
  intro t j x hx hty hbadge
  rcases h.entry t j x hx hty with ⟨-, x₀, hx₀, hcp⟩ | ⟨h0, -⟩ | ⟨-, -, i, x₀, g, hx₀, hg, h1, h2, h3, h4⟩
  · obtain ⟨hw, hh⟩ := hb t j x₀ hx₀ (hcp.type ▸ hty) (hcp.badge ▸ hbadge)
    exact no_wider hw hh hcp.handout hcp.wait
  · exact absurd h0 hbadge
  · obtain ⟨hw, hh⟩ := hb c i x₀ hx₀ (by rw [← hg.type, ← h1]; exact hty) (by rw [← hg.badge, ← h3]; exact hbadge)
    rw [h4]
    exact no_wider hw hh hg.handout hg.wait

theorem Spawned.confined {r : Kernel × Answer} (h : Spawned s c child r) (hc : Confined s S e b)
    (hpub : r.1.consoleEndpoint ≠ some e) :
    Confined r.1 {t | if r.2.isOk = true ∧ t = child then c ∈ S else t ∈ S} e b := by
  intro t htS j x hx hn
  have hn' := names_of_shrinks h.pool hn
  rcases h.entry t j x hx hn.1 with ⟨hne, x₀, hx₀, hcp⟩ | ⟨-, ho⟩ | ⟨hok, rfl, i, x₀, g, hx₀, hg, h1, h2, h3, h4⟩
  · rw [Set.mem_ofPred_eq, if_neg fun hc => hne hc.1 hc.2] at htS
    rw [hcp.badge]
    exact hc t htS j x₀ hx₀ (names_copy hcp hn')
  · refine absurd ?_ hpub
    unfold Kernel.consoleEndpoint
    rw [h.stdout, ho]
    exact hn.2.2
  · rw [Set.mem_ofPred_eq, if_pos ⟨hok, rfl⟩] at htS
    rw [h3, hg.badge]
    refine hc c htS i x₀ hx₀ ⟨by rw [← hg.type, ← h1]; exact hn.1, hg.live, ?_⟩
    rw [← hg.obj, ← h2]
    exact hn'.2.2

/-! ### Runs -/

/-- What every run keeps of the tables. -/
structure Sound (s : Kernel) : Prop where
  tabled : Tabled s
  pooled : Pooled s.endpoints
  badged : Badged s

theorem Less.sound (h : Less seat s s') (hs : Sound s) : Sound s' := ⟨h.tabled, h.pool.pooled hs.pooled, h.badged hs.badged⟩

theorem Spawned.sound {r : Kernel × Answer} (h : Spawned s c child r) (hs : Sound s) : Sound r.1 :=
  ⟨h.tabled, h.pool.pooled hs.pooled, h.badged hs.badged⟩

theorem boot_sound (h : Boot s) : Sound s where
  tabled := h.free
  pooled := ⟨h.slots, by simp [h.unused]⟩
  badged t i x hx _ hb := absurd (h.plain t i x hx) hb

theorem marked_sound (hs : Sound s) : Sound (marked s c b) where
  tabled := marked_tabled hs.tabled
  pooled := hs.pooled
  badged t i x hx := hs.badged t i x (by rwa [marked_holding] at hx)

theorem Sends.sound {cap : Nat} {r : Kernel × Kernel.Attempt} (h : Sends s c cap r) (hs : Sound s) : Sound r.1 := by
  rcases hp : s.parksOn c cap r.2 with _ | e
  · exact (h.done hp).sound hs
  · exact (h.parked e hp).2.sound (marked_sound hs)

theorem Sends.confined {cap : Nat} {r : Kernel × Kernel.Attempt} (h : Sends s c cap r) (hc : Confined s S e b) :
    Confined r.1 S e b := by
  rcases hp : s.parksOn c cap r.2 with _ | e'
  · exact (h.done hp).confined (by simp) hc
  · exact (h.parked e' hp).2.confined (by simp) (marked_confined hc)

theorem Confined.senderBadge {cap : Nat} (hc : Confined s S e b) (ht : t ∈ S)
    (hres : s.capResolve t cap .endpoint { signal := true } = .ok e) : s.senderBadge t cap = b := by
  obtain ⟨z, hz, hslot, hn, -⟩ := capResolve_ok hres
  rw [Kernel.senderBadge, hslot]
  exact hc t ht _ z hz hn

theorem Sends.sent {cap : Nat} {r : Kernel × Kernel.Attempt} {M : Set Tid} (h : Sends s c cap r) (hc : Confined s S e b)
    (hM : Sent s M b) : Sent r.1 (mailed e S M ((s.parksOn c cap r.2).map fun e => (c, e))) b := by
  rcases hp : s.parksOn c cap r.2 with _ | e'
  · exact fun t ht => ((h.done hp).badge t).trans (hM t ht)
  · obtain ⟨hres, hl⟩ := h.parked e' hp
    intro t ht
    rw [hl.badge, marked_badge]
    by_cases htc : t = c
    · rw [Option.map_some, mailed, Set.mem_ofPred_eq, if_pos htc] at ht
      obtain ⟨hcS, rfl⟩ := ht
      rw [if_pos htc]
      exact hc.senderBadge hcS hres
    · rw [Option.map_some, mailed, Set.mem_ofPred_eq, if_neg htc] at ht
      rw [if_neg htc]
      exact hM t ht

theorem Less.capNarrowAuthority {mask : Nat} (ht : Tabled s) : Less seat s (s.capNarrowAuthority c mask).1 := by
  unfold Kernel.capNarrowAuthority
  split_ifs
  · exact .refl ht
  · exact .of_kept ht (.onThr (f := fun x => { x with authority := x.authority &&& mask }) rfl)

theorem Less.threadAdd (ht : Tabled s) : Less seat s (s.threadAdd t) := by
  unfold Kernel.threadAdd
  split_ifs
  · exact .of_kept ht (.of_tables Kernel.makeReady_tables)
  · exact .refl ht

theorem sound_step (op : Op) (hs : Sound s) : Sound (op.run s).1 := by
  have hnone : Confined s ∅ 0 1 := fun t ht => absurd ht (Set.notMem_empty t)
  have hless : ∀ {k : Kernel}, Less none s k → Sound k := fun h => h.sound hs
  cases op with
  | create c admitted =>
    obtain ⟨h1, h2, h3, -⟩ := create_step c admitted hs.tabled hs.pooled hs.badged
    exact ⟨h1, h2, h3⟩
  | badge c src value =>
    obtain ⟨h1, h2, h3, -⟩ := badge_step c src value hs.tabled hs.badged (by decide) hnone
    exact ⟨h1, h2.pooled hs.pooled, h3⟩
  | narrow c cap mask => exact hless (.capNarrow hs.tabled)
  | narrowAuthority c mask => exact hless (.capNarrowAuthority hs.tabled)
  | close c cap => exact hless (.handleClose hs.tabled)
  | spawn c child k prio width authority grants chunks driver admitted grantsAdmitted =>
    exact (spawned_spawn hs.tabled).sound hs
  | start t => exact hless (.threadAdd hs.tabled)
  | exit c endsTask => exact hless (.exitCurrent hs.tabled)
  | publish c cap servedBy windowHeld admitted =>
    obtain ⟨target, hl, -⟩ := Less.publish c cap servedBy windowHeld admitted hs.tabled
    exact hl.sound hs
  | send acc c cap buf len readable noWait d => exact (sends_endpointSend hs.tabled).sound hs
  | call acc c cap buf sendLen recvCap valid d => exact (sends_endpointCall hs.tabled).sound hs
  | recv acc c cap buf capLen badgeOut d => exact hless (.endpointRecv hs.tabled)

theorem confined_step (op : Op) (hs : Sound s) (hb : b ≠ kcapBadgeNone) (hnew : op.claims s ≠ some e)
    (hpub : (op.run s).1.consoleEndpoint ≠ some e) (hc : Confined s S e b) :
    Confined (op.run s).1 (op.group s S) e b := by
  have hless : ∀ {k : Kernel}, Less none s k → Confined k S e b := fun h => h.confined (by simp) hc
  cases op with
  | create c admitted =>
    obtain ⟨-, -, -, h4⟩ := create_step c admitted hs.tabled hs.pooled hs.badged
    exact h4 S e b hnew hc
  | badge c src value => exact (badge_step c src value hs.tabled hs.badged hb hc).2.2.2
  | narrow c cap mask => exact hless (.capNarrow hs.tabled)
  | narrowAuthority c mask => exact hless (.capNarrowAuthority hs.tabled)
  | close c cap => exact hless (.handleClose hs.tabled)
  | spawn c child k prio width authority grants chunks driver admitted grantsAdmitted =>
    exact (spawned_spawn hs.tabled).confined hc hpub
  | start t => exact hless (.threadAdd hs.tabled)
  | exit c endsTask => exact hless (.exitCurrent hs.tabled)
  | publish c cap servedBy windowHeld admitted =>
    obtain ⟨target, hl, ho⟩ := Less.publish c cap servedBy windowHeld admitted hs.tabled
    refine hl.confined (fun o hto hidx => hpub ?_) hc
    show (s.publish c cap servedBy windowHeld admitted).1.stdoutTarget.bind _ = some e
    rw [ho o hto]
    exact hidx
  | send acc c cap buf len readable noWait d => exact (sends_endpointSend hs.tabled).confined hc
  | call acc c cap buf sendLen recvCap valid d => exact (sends_endpointCall hs.tabled).confined hc
  | recv acc c cap buf capLen badgeOut d => exact hless (.endpointRecv hs.tabled)

theorem sent_step {M : Set Tid} (op : Op) (hs : Sound s) (hc : Confined s S e b) (hM : Sent s M b) :
    Sent (op.run s).1 (op.messages s e S M) b := by
  have hless : ∀ {k : Kernel}, Less none s k → Sent k M b := fun h t ht => (h.badge t).trans (hM t ht)
  cases op with
  | create c admitted => exact fun t ht => (endpointCreate_badge c admitted t).trans (hM t ht)
  | badge c src value => exact fun t ht => (endpointBadge_badge c src value t).trans (hM t ht)
  | narrow c cap mask => exact hless (.capNarrow hs.tabled)
  | narrowAuthority c mask => exact hless (.capNarrowAuthority hs.tabled)
  | close c cap => exact hless (.handleClose hs.tabled)
  | spawn c child k prio width authority grants chunks driver admitted grantsAdmitted =>
    rintro t ⟨ht, hne⟩
    exact ((spawned_spawn hs.tabled).badge t fun hok htc => hne ⟨hok, htc⟩).trans (hM t ht)
  | start t => exact hless (.threadAdd hs.tabled)
  | exit c endsTask => exact hless (.exitCurrent hs.tabled)
  | publish c cap servedBy windowHeld admitted =>
    obtain ⟨target, hl, -⟩ := Less.publish c cap servedBy windowHeld admitted hs.tabled
    exact fun t ht => (hl.badge t).trans (hM t ht)
  | send acc c cap buf len readable noWait d => exact (sends_endpointSend hs.tabled).sent hc hM
  | call acc c cap buf sendLen recvCap valid d => exact (sends_endpointCall hs.tabled).sent hc hM
  | recv acc c cap buf capLen badgeOut d => exact hless (.endpointRecv hs.tabled)

theorem Reachable.sound {x : Sys} (h : Reachable x) : Sound x.k := by
  induction h with
  | boot s hs => exact boot_sound hs
  | step x op _ ih => exact sound_step op ih

theorem Later.confined {x y : Sys} {M N : Set Tid} (h : Later e x S M y T N) (hx : Reachable x) (hb : b ≠ kcapBadgeNone)
    (hc : Confined x.k S e b) (hM : Sent x.k M b) :
    Reachable y ∧ x.born e ≤ y.born e ∧ (y.born e = x.born e → Confined y.k T e b ∧ Sent y.k N b) := by
  induction h with
  | refl hpub => exact ⟨hx, Nat.le_refl _, fun _ => ⟨hc, hM⟩⟩
  | step y T N op _ hpub ih =>
    obtain ⟨hy, hle, hconf⟩ := ih
    refine ⟨.step y op hy, ?_, fun hborn => ?_⟩
    · show x.born e ≤ if op.claims y.k = some e then y.born e + 1 else y.born e
      split_ifs <;> omega
    · have hborn' : (if op.claims y.k = some e then y.born e + 1 else y.born e) = x.born e := hborn
      split_ifs at hborn' with hnew
      · omega
      · obtain ⟨h1, h2⟩ := hconf hborn'
        exact ⟨confined_step op hy.sound hb hnew hpub h1, sent_step op hy.sound h1 h2⟩

/-- A group whose capabilities on an endpoint all carry badge `b` keeps it, with no right but to signal and to
transfer, through everything its members do and spawn. Every message of theirs shows it: to the receiver that waits,
or in the receive that takes the message later, whose sender has left the queue with its bytes copied; `M` are the
threads whose message waits with badge `b` at the start, if there are any. And a spawned thread has no authority its
spawner lacks. -/
theorem badge_confined {x y : Sys} {M N : Set Tid} (hx : Reachable x) (hb : b ≠ kcapBadgeNone) (hS : Confined x.k S e b)
    (hM : Sent x.k M b) (h : Later e x S M y T N) :
    (y.born e = x.born e →
      (∀ t ∈ T, ∀ i z, y.k.holding t i = some z → y.k.Names z e →
        z.badge = b ∧ z.rights.wait = false ∧ z.rights.handout = false) ∧
      (∀ t ∈ T, ∀ cap, y.k.capResolve t cap .endpoint { signal := true } = .ok e →
        (∀ acc buf len readable noWait d,
          y.k.Shown acc e t b (y.k.endpointSend acc t cap buf len readable noWait d)) ∧
        (∀ acc buf sendLen recvCap valid d,
          y.k.Shown acc e t b (y.k.endpointCall acc t cap buf sendLen recvCap valid d)) ∧
        ∀ frame sendLen recvCap k', y.k.current = some t → y.k.ipcFastpath frame cap sendLen recvCap = some k' →
          ∃ w, y.k.wqPeekHighest (y.k.ep e).recvWaiters = some w ∧ k'.Reads (y.k.thr w).ipc.badgeOut b) ∧
      ∀ t ∈ N, (y.k.thr t).ipc.badge = b) ∧
    (∀ acc c cap buf capLen out d k' n, out ≠ 0 → acc.store out 8 = true →
      y.k.capResolve c cap .endpoint { wait := true } = .ok e → (y.k.ep e).console ≠ .served →
      y.k.endpointRecv acc c cap buf capLen out d = (k', .answered (.ok n)) →
        ∃ t, y.k.Takes k' e t buf capLen out n ∧ (y.born e = x.born e → t ∈ N → k'.Reads out b)) ∧
    ∀ c child k prio width authority grants chunks driver admitted grantsAdmitted,
      (y.k.spawn c child k prio width authority grants chunks driver admitted grantsAdmitted).2.isOk = true →
        ((y.k.spawn c child k prio width authority grants chunks driver admitted grantsAdmitted).1.thr child).authority
            &&& (y.k.thr c).authority =
          ((y.k.spawn c child k prio width authority grants chunks driver admitted grantsAdmitted).1.thr child).authority := by
  obtain ⟨hy, -, hconf⟩ := h.confined hx hb hS hM
  refine ⟨fun hborn => ⟨fun t ht i z hz hn => ?_, fun t ht cap hres => ?_, (hconf hborn).2⟩,
    fun acc c cap buf capLen out d k' n ho ha hres hcon hrecv => ?_,
    fun c child k prio width authority grants chunks driver admitted grantsAdmitted =>
      (spawned_spawn hy.sound.tabled).authority⟩
  · have hbadge := (hconf hborn).1 t ht i z hz hn
    exact ⟨hbadge, hy.sound.badged t i z hz hn.1 (by rw [hbadge]; exact hb)⟩
  · rw [← (hconf hborn).1.senderBadge ht hres]
    exact ⟨fun acc buf len readable noWait d => Kernel.shown_endpointSend hres,
      fun acc buf sendLen recvCap valid d => Kernel.shown_endpointCall hres,
      fun frame sendLen recvCap k' hcur hfast => Kernel.reads_ipcFastpath hcur hres hfast⟩
  · obtain ⟨t, ht⟩ := Kernel.takes_endpointRecv ho ha hres hcon hrecv
    refine ⟨t, ht, fun hborn htN => ?_⟩
    rw [← (hconf hborn).2 t htN]
    exact ht.shown

/-! A root that creates an endpoint, badges it, hands its own capability to a server and closes it, and spawns a
client with the badged one, whose message waits for the server. -/

def rootCaps : CapTable := { capRunFreeBuild {} 8 with width := 8, dir := [0] }

def rootKernel : Kernel where
  thr t := if t = 0 then { state := .running, caps := rootCaps, authority := 1023 } else {}
  count := 3
  current := some 0
  endpoints := { count := 1 }

def serverSpawn : Op :=
  .spawn 0 2 0 5 8 0 [{ cap := 1, mask := Rights.all, dest := 0 }] [2] false true true

/-- The root with its badged capability in slot 2. -/
def badgedRoot : Sys :=
  (((({ k := rootKernel } : Sys).step (.create 0 true)).step (.badge 0 1 7)).step serverSpawn).step (.close 0 1)

def clientSpawn : Op :=
  .spawn 0 1 0 5 8 3 [{ cap := 2, mask := { signal := true }, dest := 0 }] [1] false true true

theorem rootCaps_empty (i : Nat) : (rootCaps.slots i).type = .empty := by
  have h : capSlabAttach [0] 8 = some (rootCaps, []) := rfl
  exact (attach_type h).2 i

theorem rootKernel_boot : Boot rootKernel := by
  have hcaps : ∀ t, (rootKernel.thr t).caps = if t = 0 then rootCaps else {} := fun t => by
    simp only [rootKernel]
    split_ifs <;> rfl
  refine ⟨fun t => ?_, by decide, rfl, fun t i x hx => ?_⟩
  · rw [hcaps]
    split_ifs
    · exact ⟨_, freeList_build (by decide) (by decide) [0]⟩
    · exact ⟨[], freeList_empty⟩
  · obtain ⟨hw, hslot, hty⟩ := holding_some_iff.mp hx
    rw [hcaps] at hw hslot
    split_ifs at hw hslot
    · rw [← hslot] at hty
      exact absurd (rootCaps_empty i) hty
    · exact absurd hw (Nat.not_lt_zero i)

theorem badgedRoot_confined : Confined badgedRoot.k {0} 0 7 := by
  rintro t rfl i x hx -
  obtain ⟨hw, hslot, hty⟩ := holding_some_iff.mp hx
  have h8 : (badgedRoot.k.thr 0).caps.width = 8 := by decide
  have hall : ∀ i < 8, ((badgedRoot.k.thr 0).caps.slots i).type ≠ .empty → ((badgedRoot.k.thr 0).caps.slots i).badge = 7 := by
    decide
  rw [h8] at hw
  subst hslot
  exact hall i hw hty

def clientSend : Op := .send Access.flat 1 1 256 4 true false none

def clientWaits : Sys := (badgedRoot.step clientSpawn).step clientSend

/-- The client can only signal, and the server that receives later reads badge 7. -/
theorem badge_confined_client :
    clientWaits.k.holding 1 1 ≠ none ∧
      (∀ i z, clientWaits.k.holding 1 i = some z → clientWaits.k.Names z 0 →
        z.badge = 7 ∧ z.rights.wait = false ∧ z.rights.handout = false) ∧
      (clientWaits.k.endpointRecv Access.flat 2 1 512 16 1024 none).1.Reads 1024 7 := by
  have hx : Reachable badgedRoot := .step _ _ (.step _ _ (.step _ _ (.step _ _ (.boot _ rootKernel_boot))))
  have hl : Later 0 badgedRoot {0} ∅ clientWaits _ _ :=
    .step _ _ _ clientSend (.step _ _ _ clientSpawn (.refl (by decide)) (by decide)) (by decide)
  have hok : (clientSpawn.run badgedRoot.k).2.isOk = true := by decide
  have hmem : (1 : Tid) ∈ clientSpawn.group badgedRoot.k {0} := by
    show (1 : Tid) ∈ {t | if (clientSpawn.run badgedRoot.k).2.isOk = true ∧ t = 1 then (0 : Tid) ∈ ({0} : Set Tid) else _}
    rw [Set.mem_ofPred_eq, if_pos ⟨hok, rfl⟩]
    exact Set.mem_singleton 0
  have hparks : clientSend.parks (badgedRoot.step clientSpawn).k = some (1, 0) := by decide
  obtain ⟨h1, h2, -⟩ := badge_confined hx (by decide) badgedRoot_confined (fun t ht => absurd ht (Set.notMem_empty t)) hl
  obtain ⟨hcaps, -, -⟩ := h1 (by decide)
  have hrecv : (clientWaits.k.endpointRecv Access.flat 2 1 512 16 1024 none).2 = .answered (.ok 4) := by
    decide +kernel
  obtain ⟨t, ht, hreads⟩ := h2 Access.flat 2 1 512 16 1024 none (clientWaits.k.endpointRecv Access.flat 2 1 512 16 1024 none).1
    4 (by decide) rfl (by decide) (by decide) (by rw [← hrecv])
  have hqueue : (clientWaits.k.ep 0).sendWaiters = [1] := by decide
  obtain rfl : t = 1 := by simpa [hqueue] using ht.parked
  refine ⟨by decide, hcaps 1 hmem, hreads (by decide) ?_⟩
  show (1 : Tid) ∈ mailed 0 _ _ (clientSend.parks (badgedRoot.step clientSpawn).k)
  rw [hparks, mailed, Set.mem_ofPred_eq, if_pos rfl]
  exact ⟨hmem, rfl⟩

end Cap
end KickOS
