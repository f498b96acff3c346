import KickOS.Doorbell.Model

/-! What holds of an asking core and an asked one, of the words between them and of where the two are.

A pass answers with what its snapshot read, and it drains in between. So a core that has its request answered has had
whatever it asked before that request performed. -/

namespace KickOS
namespace Doorbell

variable {n : Nat} {lineCore : Int → Int} {s s' : St n} {c t i : Fin n} {a : Act n}

/-! ### Cells -/

section set2

variable {α : Type} {f : Fin n → Fin n → α} {j k : Fin n} {v : α}

@[simp] theorem set2_self : set2 f i j v i j = v := by simp [set2]

theorem set2_of_ne (h : ¬ (k = i ∧ t = j)) : set2 f i j v k t = f k t := by
  by_cases hk : k = i
  · subst hk
    have ht : t ≠ j := fun ht => h ⟨rfl, ht⟩
    simp [set2, ht]
  · simp [set2, hk]

end set2

/-! ### Where a core is -/

def Prog.routed : Prog n → Option (Routed n)
  | .line r | .op r | .seq r => some r
  | .bump _ _ r | .raise _ r | .look _ _ r | .spin _ _ _ _ r => r
  | .idle => none

/-- The routed operation whose sequence is stored. -/
def Prog.posted : Prog n → Option (Routed n)
  | .bump _ _ r | .raise _ r | .look _ _ r | .spin _ _ _ _ r => r
  | _ => none

/-- The core has counted its request for `t`. -/
def Prog.Counted (t : Fin n) : Prog n → Prop
  | .bump rest _ _ => t ∉ rest
  | .raise .. | .look .. | .spin .. => True
  | _ => False

/-- What a send or a wait with a routed operation behind it is for, and what is stored of one. -/
def Prog.Names (c t : Fin n) (ask : Ask) : Prog n → Prop
  | .idle => True
  | .line r => r.owner ≠ c
  | .op r => r.owner ≠ c ∧ (r.owner = t → ask.line = r.line)
  | .seq r => r.owner ≠ c ∧ (r.owner = t → ask.line = r.line ∧ ask.op = r.op)
  | .bump _ cores r | .raise cores r | .look _ cores r | .spin _ _ _ cores r =>
    ∀ r', r = some r' → cores r'.owner = true ∧ r'.owner ≠ c ∧ (r'.owner = t → ask.line = r'.line ∧ ask.op = r'.op)

/-- The cores a wait has left behind have answered. -/
def Prog.Waits (c t : Fin n) (request answer : Nat) : Prog n → Prop
  | .look rest cores _ => cores t = true → t ≠ c → t ∈ rest ∨ answer = request
  | .spin u asked rest cores _ => (t = u → asked = request) ∧ (cores t = true → t ≠ c → t ∈ rest ∨ t = u ∨ answer = request)
  | _ => True

/-- The pass still has the asks of `c` to look at, or to perform. -/
def Pass.Ahead (c : Fin n) : Pass n → Prop
  | .snapshot _ owed => owed = true
  | .drain rest => c ∈ rest
  | .fetched i _ rest | .lined i _ _ rest | .ready i _ _ _ rest | .performed i _ rest => c = i ∨ c ∈ rest
  | .publish _ | .out => False

/-- The sequence of `c` the pass is performing. -/
def Pass.mid (c : Fin n) : Pass n → Option Nat
  | .fetched i seq _ | .lined i seq _ _ | .ready i seq _ _ _ | .performed i seq _ => if i = c then some seq else none
  | _ => none

/-- What the pass has read of an ask of `c`. -/
def Pass.Read (c : Fin n) (ask : Ask) : Pass n → Prop
  | .lined i _ line _ => i = c → line = ask.line
  | .ready i _ line op _ => i = c → line = ask.line ∧ op = ask.op
  | _ => True

/-- The asking core `c`, the asked core `t`, and the words between them. -/
structure Pair (c t : Fin n) (request answer asked : Nat) (ask : Ask) (ran : Nat) (p : Prog n) (q : Pass n) : Prop where
  answered : answer ≤ asked
  loaded : asked ≤ request
  /-- Nothing stands that was not posted. -/
  quiet : (∀ r, p.posted = some r → r.owner ≠ t) → ran = ask.seq
  stands : ask.seq = ran ∨ ask.seq = ran + 1
  names : p.Names c t ask
  waits : p.Waits c t request answer
  mid : ∀ seq, q.mid c = some seq → seq = ask.seq ∧ ask.seq = ran + 1
  read : q.Read c ask
  /-- A request that a snapshot has read is drained for, or it is about to be. -/
  drains : p.Counted t → (∃ r, p.posted = some r ∧ r.owner = t) → asked = request → ran = ask.seq ∨ q.Ahead c
  settles : p.Counted t → (∃ r, p.posted = some r ∧ r.owner = t) → answer = request → ran = ask.seq

def Inv (s : St n) : Prop :=
  ∀ c t, Pair c t (s.request c t) (s.answer t c) (s.asked t c) (s.ask c t) (s.ran t c) (s.prog c) (s.pass t)

/-- Fewer than 2^32 requests stand unanswered. -/
def Below (s : St n) : Prop := ∀ c t, s.request c t < s.answer t c + word

theorem inv_initial : Inv (initial n) := fun c t =>
  { answered := le_rfl
    loaded := le_rfl
    quiet := fun _ => rfl
    stands := Or.inl rfl
    names := trivial
    waits := trivial
    mid := fun seq h => by cases h
    read := trivial
    drains := fun h => h.elim
    settles := fun h => h.elim }

/-! ### A step of a pass -/

section pass

variable {request answer asked ran : Nat} {ask : Ask} {p : Prog n} {q q' : Pass n}

theorem Pair.pass (h : Pair c t request answer asked ask ran p q)
    (hmid : ∀ seq, q'.mid c = some seq → seq = ask.seq ∧ ask.seq = ran + 1)
    (hread : q'.Read c ask) (hahead : q.Ahead c → ran = ask.seq ∨ q'.Ahead c) : Pair c t request answer asked ask ran p q' :=
  { h with
    mid := hmid
    read := hread
    drains := fun hc hp ha => (h.drains hc hp ha).elim Or.inl hahead }

theorem eq_of_word {x y : Nat} (hle : x ≤ y) (hlt : y < x + word) (h : y % word = x % word) : y = x := by
  unfold word at *
  omega

theorem Pair.load {rest rest' : List (Fin n)} {owed : Bool} (h : Pair c t request answer asked ask ran p (.snapshot rest owed))
    (hlt : request < answer + word) :
    Pair c t request answer request ask ran p (.snapshot rest' (owed || decide (request % word ≠ answer % word))) where
  answered := h.answered.trans h.loaded
  loaded := le_rfl
  quiet := h.quiet
  stands := h.stands
  names := h.names
  waits := h.waits
  mid := fun seq hm => by cases hm
  read := trivial
  drains := fun hc hp _ => by
    by_cases hw : request % word = answer % word
    · have heq := eq_of_word (h.answered.trans h.loaded) hlt hw
      exact Or.inl (h.settles hc hp heq.symm)
    · right
      simp [Pass.Ahead, hw]
  settles := h.settles

theorem Pair.fetch {rest : List (Fin n)} (h : Pair c t request answer asked ask ran p (.drain (i :: rest))) {seq : Nat}
    (hseq : i = c → seq = ask.seq) {skip : Prop} [Decidable skip] (hskip : i = c → (skip ↔ ask.seq % word = ran % word)) :
    Pair c t request answer asked ask ran p (if skip then .drain rest else .fetched i seq rest) := by
  have hword : ask.seq % word = ran % word → ran = ask.seq := fun hw => by
    rcases h.stands with hs | hs
    · exact hs.symm
    · refine (eq_of_word (by rw [hs]; exact Nat.le_succ _) ?_ hw).symm
      rw [hs]
      exact Nat.add_lt_add_left (Nat.one_lt_two_pow (by decide)) _
  split
  · rename_i hs
    refine h.pass (fun seq hm => by cases hm) trivial fun ha => ?_
    rcases List.mem_cons.mp ha with rfl | hmem
    · exact Or.inl (hword ((hskip rfl).mp hs))
    · exact Or.inr hmem
  · rename_i hs
    refine h.pass (fun seq' hm => ?_) trivial fun ha => Or.inr (List.mem_cons.mp ha)
    simp only [Pass.mid] at hm
    split at hm
    · rename_i hi
      cases hm
      refine ⟨hseq hi, ?_⟩
      rcases h.stands with hst | hst
      · exact absurd ((hskip hi).mpr (by rw [hst])) hs
      · exact hst
    · cases hm

theorem Pair.storeRan {rest : List (Fin n)} {seq ran' : Nat} (h : Pair c t request answer asked ask ran p (.performed i seq rest))
    (hran : ran' = if i = c then seq else ran) : Pair c t request answer asked ask ran' p (.drain rest) := by
  by_cases hi : i = c
  · obtain ⟨hseq, hone⟩ := h.mid seq (by simp [Pass.mid, hi])
    rw [if_pos hi, hseq] at hran
    subst hran
    exact
      { h with
        quiet := fun _ => rfl
        stands := Or.inl rfl
        mid := fun seq hm => by cases hm
        read := trivial
        drains := fun _ _ _ => Or.inl rfl
        settles := fun _ _ _ => rfl }
  · rw [if_neg hi] at hran
    subst hran
    refine h.pass (fun seq hm => by cases hm) trivial fun ha => Or.inr ?_
    rcases ha with rfl | hmem
    · exact absurd rfl hi
    · exact hmem

theorem Pair.publish {rest rest' : List (Fin n)} (h : Pair c t request answer asked ask ran p (.publish rest)) :
    Pair c t request asked asked ask ran p (.publish rest') :=
  { h with
    answered := le_rfl
    waits := by
      have hw := h.waits
      have hup : answer = request → asked = request := fun he => le_antisymm h.loaded (he ▸ h.answered)
      unfold Prog.Waits at hw ⊢
      split
      · exact fun hc hne => (hw hc hne).imp id hup
      · exact ⟨hw.1, fun hc hne => (hw.2 hc hne).imp id (Or.imp id hup)⟩
      · trivial
    mid := fun seq hm => by cases hm
    read := trivial
    drains := fun hc hp ha => (h.drains hc hp ha).elim Or.inl fun hno => hno.elim
    settles := fun hc hp ha => (h.drains hc hp ha).elim id fun hno => hno.elim }

end pass

/-! ### A step of a send, a wait or a routed operation -/

section prog

variable {request answer asked ran : Nat} {ask ask' : Ask} {p p' : Prog n} {q : Pass n} {r : Routed n} {rest : List (Fin n)}
  {cores : Fin n → Bool} {routed : Option (Routed n)}

theorem Pair.prog (h : Pair c t request answer asked ask ran p q) (hposted : p'.posted = p.posted)
    (hcounted : (∃ r, p.posted = some r ∧ r.owner = t) → p'.Counted t → p.Counted t) (hnames : p'.Names c t ask)
    (hwaits : p'.Waits c t request answer) : Pair c t request answer asked ask ran p' q :=
  { h with
    quiet := fun hq => h.quiet (by rwa [hposted] at hq)
    names := hnames
    waits := hwaits
    drains := fun hc hp => by
      rw [hposted] at hp
      exact h.drains (hcounted hp hc) hp
    settles := fun hc hp => by
      rw [hposted] at hp
      exact h.settles (hcounted hp hc) hp }

theorem Pair.bump {u : Fin n} {request' : Nat} (h : Pair c t request answer asked ask ran (.bump (u :: rest) cores routed) q)
    (hreq : request' = if t = u ∧ cores u = true then request + 1 else request) :
    Pair c t request' answer asked ask ran (.bump rest cores routed) q := by
  by_cases hu : t = u ∧ cores u = true
  · rw [if_pos hu] at hreq
    subst hreq
    refine
      { h with
        loaded := Nat.le_succ_of_le h.loaded
        waits := trivial
        drains := fun _ _ ha => absurd h.loaded (by rw [ha]; exact Nat.not_succ_le_self _)
        settles := fun _ _ ha => absurd (h.answered.trans h.loaded) (by rw [ha]; exact Nat.not_succ_le_self _) }
  · rw [if_neg hu] at hreq
    subst hreq
    refine h.prog rfl ?_ h.names trivial
    rintro ⟨r, hr, howner⟩ hrest hmem
    rcases List.mem_cons.mp hmem with htu | hmem
    · obtain ⟨hcores, -⟩ := h.names r hr
      rw [howner, htu] at hcores
      exact hu ⟨htu, hcores⟩
    · exact hrest hmem

theorem Pair.look {u : Fin n} {asked' : Nat} (h : Pair c t request answer asked ask ran (.look (u :: rest) cores routed) q)
    (hasked : t = u → asked' = request) :
    Pair c t request answer asked ask ran (if cores u ∧ u ≠ c then .spin u asked' rest cores routed else
      .look rest cores routed) q := by
  split
  · refine h.prog rfl (fun _ _ => trivial) h.names ⟨hasked, fun hc hne => ?_⟩
    rcases h.waits hc hne with hmem | heq
    · rcases List.mem_cons.mp hmem with htu | hmem
      · exact Or.inr (Or.inl htu)
      · exact Or.inl hmem
    · exact Or.inr (Or.inr heq)
  · rename_i hno
    refine h.prog rfl (fun _ _ => trivial) h.names fun hc hne => ?_
    rcases h.waits hc hne with hmem | heq
    · rcases List.mem_cons.mp hmem with rfl | hmem
      · exact absurd ⟨hc, hne⟩ hno
      · exact Or.inl hmem
    · exact Or.inr heq

theorem Pair.settle {u : Fin n} {asked' : Nat} (h : Pair c t request answer asked ask ran (.spin u asked' rest cores routed) q)
    (hlt : request < answer + word) (hword : t = u → answer % word = asked' % word) :
    Pair c t request answer asked ask ran (.look rest cores routed) q := by
  refine h.prog rfl (fun _ _ => trivial) h.names fun hc hne => ?_
  rcases h.waits.2 hc hne with hmem | htu | heq
  · exact Or.inl hmem
  · have hasked := h.waits.1 htu
    have hw := hword htu
    rw [hasked] at hw
    exact Or.inr (eq_of_word (h.answered.trans h.loaded) hlt hw.symm).symm
  · exact Or.inr heq

theorem Pair.waited (h : Pair c t request answer asked ask ran (.look [] cores routed) q) : ran = ask.seq := by
  by_cases hp : ∃ r, routed = some r ∧ r.owner = t
  · obtain ⟨r, hr, howner⟩ := hp
    obtain ⟨hcores, hne, -⟩ := h.names r hr
    rw [howner] at hcores hne
    rcases h.waits hcores hne with hmem | heq
    · cases hmem
    · exact h.settles trivial ⟨r, hr, howner⟩ heq
  · exact h.quiet fun r hr howner => hp ⟨r, hr, howner⟩

theorem Pair.unread (h : Pair c t request answer asked ask ran p q) (hran : ran = ask.seq) : q.mid c = none := by
  cases hm : q.mid c with
  | none => rfl
  | some seq =>
    have := (h.mid seq hm).2
    rw [hran] at this
    exact absurd this (Nat.ne_of_lt (Nat.lt_succ_self _))

theorem read_of_mid_none (hm : q.mid c = none) : q.Read c ask := by
  unfold Pass.Read
  split
  · rename_i i seq line rest
    rintro rfl
    simp [Pass.mid] at hm
  · rename_i i seq line op rest
    rintro rfl
    simp [Pass.mid] at hm
  · trivial

theorem Pair.store (h : Pair c t request answer asked ask ran p q) (hnone : p.posted = none)
    (hseq : ask'.seq = ask.seq ∧ p'.posted = none ∨ ask'.seq = ask.seq + 1 ∧ (∃ r, p'.posted = some r ∧ r.owner = t) ∧
      ¬ p'.Counted t)
    (hnames : p'.Names c t ask') (hwaits : p'.Waits c t request answer) : Pair c t request answer asked ask' ran p' q := by
  have hran : ran = ask.seq := h.quiet fun r hr => by
    rw [hnone] at hr
    cases hr
  have hmid := h.unread hran
  rcases hseq with ⟨hseq, hnone'⟩ | ⟨hseq, ⟨r, hr, howner⟩, hnot⟩
  · exact
      { answered := h.answered
        loaded := h.loaded
        quiet := fun _ => hran.trans hseq.symm
        stands := Or.inl (hseq.trans hran.symm)
        names := hnames
        waits := hwaits
        mid := fun seq hm => by rw [hmid] at hm; cases hm
        read := read_of_mid_none hmid
        drains := fun _ _ _ => Or.inl (hran.trans hseq.symm)
        settles := fun _ _ _ => hran.trans hseq.symm }
  · exact
      { answered := h.answered
        loaded := h.loaded
        quiet := fun hq => absurd howner (hq r hr)
        stands := Or.inr (by rw [hseq, hran])
        names := hnames
        waits := hwaits
        mid := fun seq hm => by rw [hmid] at hm; cases hm
        read := read_of_mid_none hmid
        drains := fun hc => absurd hc hnot
        settles := fun hc => absurd hc hnot }

end prog

end Doorbell
end KickOS
