import KickOS.Argv.Block

/-! A vector that nobody rewrites: the second pass finds what the first measured, and the block holds the caller's strings. -/

namespace KickOS.Argv
open Range Lib Buffer

variable {w n : Nat} {cfg : Config} {c : Caller w n} {m : World w} {ord : Order w} {mem : BitVec w → BitVec 8}
    {acq : BitVec w → Bool}

/-- The caller's memory stays as it is. -/
structure Still (m : World w) (mem : BitVec w → BitVec 8) (acq : BitVec w → Bool) : Prop where
  byte : ∀ t a, m.byte t a = mem a
  acquire : ∀ t a, m.acquire t a = acq a

def run (mem : BitVec w → BitVec 8) (src : BitVec w) (k : Nat) : List (BitVec 8) :=
  (List.range k).map fun p => mem (src + BitVec.ofNat w p)

/-- Every granule of a copy can be acquired. -/
def Got (m : World w) (acq : BitVec w → Bool) (first : Bool) (src : BitVec w) (k : Nat) : Prop :=
  ∀ p, p < k → (first = true ∧ p = 0) ∨ (src + BitVec.ofNat w p) &&& (m.granule - 1) = 0 → acq (src + BitVec.ofNat w p) = true

theorem run_succ (src : BitVec w) (k : Nat) : run mem src (k + 1) = mem src :: run mem (src + 1) k := by
  unfold run
  rw [List.range_succ_eq_map, List.map_cons, List.map_map]
  refine congrArg₂ _ (by rw [BitVec.add_zero]) (List.map_congr_left ?_)
  intro p _
  rw [Function.comp_apply, Nat.succ_eq_one_add, ← ofNat_add_ofNat]
  rfl

theorem copyIn_still (hs : Still m mem acq) (first : Bool) (src : BitVec w) (k : Nat) (io : Io w) :
    ((m.copyIn first src k io).ok = true ↔ Got m acq first src k) ∧
      ((m.copyIn first src k io).ok = true → (m.copyIn first src k io).bytes = run mem src k) := by
  induction k generalizing first src io with
  | zero => exact ⟨⟨fun _ p hp => absurd hp (Nat.not_lt_zero p), fun _ => rfl⟩, fun _ => rfl⟩
  | succ k ih =>
    have hgot : Got m acq first src (k + 1) ↔
        ((first = true ∨ src &&& (m.granule - 1) = 0) → acq src = true) ∧ Got m acq false (src + 1) k := by
      constructor
      · intro hg
        refine ⟨?_, ?_⟩
        · intro hf
          have h0 := hg 0 (Nat.succ_pos k)
          rw [BitVec.add_zero] at h0
          exact h0 (hf.imp (fun h => ⟨h, rfl⟩) id)
        · intro p hp hf
          have h1 := hg (p + 1) (by omega)
          rw [Nat.add_comm p 1, ← ofNat_add_ofNat] at h1
          exact h1 (.inr (hf.resolve_left fun h => by cases h.1))
      · intro hg p hp hf
        cases p with
        | zero =>
          rw [BitVec.add_zero] at hf ⊢
          exact hg.1 (hf.imp (fun h => h.1) id)
        | succ p =>
          rw [Nat.add_comm p 1, ← ofNat_add_ofNat] at hf ⊢
          exact hg.2 p (by omega) (.inr (hf.resolve_left fun h => absurd h.2 (by omega)))
    rw [hgot, run_succ]
    unfold World.copyIn
    rw [hs.acquire]
    split
    next hno =>
      refine ⟨⟨fun h => (by cases h), fun h => ?_⟩, fun h => (by cases h)⟩
      rw [h.1 hno.1] at hno
      cases hno.2
    next hyes =>
      obtain ⟨h1, h2⟩ := ih false (src + 1) ⟨io.now + 1, src :: io.reads⟩
      have hfirst : first = true ∨ src &&& (m.granule - 1) = 0 → acq src = true := by
        intro hf
        by_contra hne
        exact hyes ⟨hf, by simpa using hne⟩
      simp only
      refine ⟨⟨fun h => ⟨hfirst, h1.1 h⟩, fun h => h1.2 h.2⟩, ?_⟩
      intro hok
      rw [h2 hok, hs.byte]

theorem Got.le {first : Bool} {src : BitVec w} {k q : Nat} (h : Got m acq first src k) (hq : q ≤ k) : Got m acq first src q :=
  fun p hp => h p (hp.trans_le hq)

theorem length_run (src : BitVec w) (k : Nat) : (run mem src k).length = k := by simp [run]

/-! ### The scan -/

section Scan

variable {s : BitVec w} {pos len k : Nat}

theorem scan_run_ok (h : scan none pos (run mem (s + BitVec.ofNat w pos) k) = some (.ok len)) :
    pos ≤ len ∧ len < pos + k ∧ (∀ p, pos ≤ p → p < len → mem (s + BitVec.ofNat w p) ≠ 0) ∧ mem (s + BitVec.ofNat w len) = 0 := by
  induction k generalizing pos with
  | zero => cases h
  | succ k ih =>
    rw [run_succ] at h
    unfold scan at h
    have hnext : s + BitVec.ofNat w pos + 1 = s + BitVec.ofNat w (pos + 1) := ofNat_add_ofNat pos 1
    split_ifs at h with hown hz
    · cases h
    · cases h
      exact ⟨le_rfl, by omega, fun p h1 h2 => absurd h1 (by omega), hz⟩
    · rw [hnext] at h
      obtain ⟨h1, h2, h3, h4⟩ := ih h
      refine ⟨by omega, by omega, ?_, h4⟩
      intro p hp1 hp2
      rcases hp1.eq_or_lt with rfl | hlt
      · exact hz
      · exact h3 p hlt hp2

theorem scan_run_none : scan none pos (run mem (s + BitVec.ofNat w pos) k) = none ↔ ∀ p, pos ≤ p → p < pos + k →
    mem (s + BitVec.ofNat w p) ≠ 0 := by
  induction k generalizing pos with
  | zero => exact ⟨fun _ p h1 h2 => absurd h1 (by omega), fun _ => rfl⟩
  | succ k ih =>
    rw [run_succ]
    unfold scan
    have hnext : s + BitVec.ofNat w pos + 1 = s + BitVec.ofNat w (pos + 1) := ofNat_add_ofNat pos 1
    have hown : ¬ ∃ o ∈ (none : Option (Nat → BitVec 8)), mem (s + BitVec.ofNat w pos) ≠ o pos := by simp
    rw [if_neg hown]
    split
    next hz =>
      refine ⟨fun h => (by cases h), fun h => absurd hz (h pos le_rfl (by omega))⟩
    next hz =>
      rw [hnext, ih]
      constructor
      · intro h p hp1 hp2
        rcases hp1.eq_or_lt with rfl | hlt
        · exact hz
        · exact h p hlt (by omega)
      · intro h p hp1 hp2
        exact h p (by omega) (by omega)

theorem scan_run_of (h1 : pos ≤ len) (h2 : len < pos + k) (h3 : ∀ p, pos ≤ p → p < len → mem (s + BitVec.ofNat w p) ≠ 0)
    (h4 : mem (s + BitVec.ofNat w len) = 0) : scan none pos (run mem (s + BitVec.ofNat w pos) k) = some (.ok len) := by
  induction k generalizing pos with
  | zero => omega
  | succ k ih =>
    rw [run_succ]
    unfold scan
    have hnext : s + BitVec.ofNat w pos + 1 = s + BitVec.ofNat w (pos + 1) := ofNat_add_ofNat pos 1
    have hown : ¬ ∃ o ∈ (none : Option (Nat → BitVec 8)), mem (s + BitVec.ofNat w pos) ≠ o pos := by simp
    rw [if_neg hown]
    rcases h1.eq_or_lt with rfl | hlt
    · rw [if_pos h4]
    · rw [if_neg (h3 pos le_rfl hlt), hnext]
      exact ih hlt (by omega) fun p hp1 hp2 => h3 p (by omega) hp2

end Scan

/-! ### Strings -/

section Strings

variable {s : BitVec w} {room room' pos len : Nat}

/-- The caller's memory has the string at the address. -/
structure Str (mem : BitVec w → BitVec 8) (s : BitVec w) (str : List (BitVec 8)) : Prop where
  bytes : run mem s str.length = str
  nonzero : ∀ p, p < str.length → mem (s + BitVec.ofNat w p) ≠ 0
  nul : mem (s + BitVec.ofNat w str.length) = 0

theorem readableLen_min {want want' : Nat} (hw : want < 2 ^ w) (hle : want' ≤ want) :
    c.readableLen s want' = min (c.readableLen s want) want' := by
  obtain ⟨h1, h2, h3⟩ := readableLen_spec c s hw
  obtain ⟨h1', h2', h3'⟩ := readableLen_spec c s (hle.trans_lt hw)
  refine le_antisymm (le_min (h3 _ (h2'.trans hle) h1') h2') ?_
  exact h3' _ (min_le_right _ _) (readableOk_le h1 (h2.trans_lt hw) (min_le_left _ _))

theorem stringFrom_round (hs : Still m mem acq) (fuel : Nat) (io : Io w)
    (h : (stringFrom c m none s room (fuel + 1) pos io).2 = .ok len) :
    ∃ k, k = c.readableLen (s + BitVec.ofNat w pos) (min (room - pos) nameChunk) ∧ pos < room ∧ k ≠ 0 ∧
      Got m acq true (s + BitVec.ofNat w pos) k ∧
      (scan none pos (run mem (s + BitVec.ofNat w pos) k) = some (.ok len) ∨
        (scan none pos (run mem (s + BitVec.ofNat w pos) k) = none ∧ ¬ k < min (room - pos) nameChunk ∧
          ∃ io', (stringFrom c m none s room fuel (pos + k) io').2 = .ok len)) := by
  unfold stringFrom at h
  dsimp only at h
  split at h
  next hpos =>
    obtain ⟨k, hk⟩ : ∃ k, k = c.readableLen (s + BitVec.ofNat w pos) (min (room - pos) nameChunk) := ⟨_, rfl⟩
    rw [← hk] at h
    obtain ⟨hgot, hbytes⟩ := copyIn_still hs true (s + BitVec.ofNat w pos) k io
    split at h
    · cases h
    next h0 =>
      split at h
      · cases h
      next hok =>
        have hok : (m.copyIn true (s + BitVec.ofNat w pos) k io).ok = true := by simpa using hok
        rw [hbytes hok] at h
        refine ⟨k, hk, hpos, h0, hgot.1 hok, ?_⟩
        split at h
        next r hscan =>
          have h : r = .ok len := h
          rw [h] at hscan
          exact .inl hscan
        next hscan =>
          split at h
          · cases h
          next hfull => exact .inr ⟨hscan, hfull, _, h⟩
  · cases h

theorem stringFrom_of_round (hs : Still m mem acq) (fuel : Nat) (io : Io w) {k : Nat}
    (hk : k = c.readableLen (s + BitVec.ofNat w pos) (min (room - pos) nameChunk)) (hpos : pos < room) (h0 : k ≠ 0)
    (hgot : Got m acq true (s + BitVec.ofNat w pos) k)
    (h : scan none pos (run mem (s + BitVec.ofNat w pos) k) = some (.ok len) ∨
      (scan none pos (run mem (s + BitVec.ofNat w pos) k) = none ∧ ¬ k < min (room - pos) nameChunk ∧
        ∀ io', (stringFrom c m none s room fuel (pos + k) io').2 = .ok len)) :
    (stringFrom c m none s room (fuel + 1) pos io).2 = .ok len := by
  obtain ⟨hok, hbytes⟩ := copyIn_still hs true (s + BitVec.ofNat w pos) k io
  have hok := hok.2 hgot
  unfold stringFrom
  dsimp only
  rw [if_pos hpos, ← hk, if_neg h0, if_neg (by simp [hok]), hbytes hok]
  rcases h with hscan | ⟨hscan, hfull, hrest⟩
  · rw [hscan]
  · rw [hscan]
    simp only
    rw [if_neg hfull]
    exact hrest _

theorem Got.at_place {k p : Nat} (h : Got m acq true (s + BitVec.ofNat w pos) k) (h1 : pos ≤ p) (h2 : p < pos + k)
    (hp : p = pos ∨ (s + BitVec.ofNat w p) &&& (m.granule - 1) = 0) : acq (s + BitVec.ofNat w p) = true := by
  have hg := h (p - pos) (by omega)
  rw [ofNat_add_ofNat, Nat.add_sub_cancel' h1] at hg
  exact hg (hp.imp (fun heq => ⟨rfl, by omega⟩) id)

theorem stringFrom_str (hs : Still m mem acq) (hr : room ≤ 65535) (fuel : Nat) (io : Io w)
    (h : (stringFrom c m none s room fuel pos io).2 = .ok len) :
    pos ≤ len ∧ len < room ∧ (∀ p, pos ≤ p → p < len → mem (s + BitVec.ofNat w p) ≠ 0) ∧ mem (s + BitVec.ofNat w len) = 0 ∧
      ∀ p, pos ≤ p → p ≤ len → p = pos ∨ (s + BitVec.ofNat w p) &&& (m.granule - 1) = 0 → acq (s + BitVec.ofNat w p) = true := by
  induction fuel generalizing pos io with
  | zero => cases h
  | succ fuel ih =>
    obtain ⟨k, hk, hpos, h0, hgot, hcase⟩ := stringFrom_round hs fuel io h
    have hkle := (readableLen_spec c (s + BitVec.ofNat w pos) (c.lt_of_le (by omega : min (room - pos) nameChunk ≤ 65535))).2.1
    rw [← hk] at hkle
    rcases hcase with hscan | ⟨hscan, -, io', hrest⟩
    · obtain ⟨h1, h2, h3, h4⟩ := scan_run_ok hscan
      exact ⟨h1, by omega, h3, h4, fun p hp1 hp2 hp => hgot.at_place hp1 (by omega) hp⟩
    · obtain ⟨h1, h2, h3, h4, h5⟩ := ih io' hrest
      refine ⟨by omega, h2, ?_, h4, ?_⟩
      · intro p hp1 hp2
        by_cases hpk : p < pos + k
        · exact scan_run_none.1 hscan p hp1 hpk
        · exact h3 p (by omega) hp2
      · intro p hp1 hp2 hp
        by_cases hpk : p < pos + k
        · exact hgot.at_place hp1 hpk hp
        · refine h5 p (by omega) hp2 ?_
          rcases hp with heq | hgran
          · omega
          · exact .inr hgran

theorem stringFrom_shrink (hs : Still m mem acq) (hr : room ≤ 65535) (hle : room' ≤ room) (hlen : len < room') (fuel fuel' : Nat)
    (io io' : Io w) (hf : room' - pos ≤ fuel') (h : (stringFrom c m none s room fuel pos io).2 = .ok len) :
    (stringFrom c m none s room' fuel' pos io').2 = .ok len := by
  induction fuel generalizing pos io io' fuel' with
  | zero => cases h
  | succ fuel ih =>
    have hge := (stringFrom_str hs hr (fuel + 1) io h).1
    obtain ⟨k, hk, hpos, h0, hgot, hcase⟩ := stringFrom_round hs fuel io h
    have hwant : min (room - pos) nameChunk < 2 ^ w := c.lt_of_le (by omega)
    have hkle := (readableLen_spec c (s + BitVec.ofNat w pos) hwant).2.1
    have hmin := readableLen_min (c := c) (s := s + BitVec.ofNat w pos) hwant
      (by omega : min (room' - pos) nameChunk ≤ min (room - pos) nameChunk)
    rw [← hk] at hkle hmin
    obtain ⟨fuel', rfl⟩ : ∃ f, fuel' = f + 1 := ⟨fuel' - 1, by omega⟩
    refine stringFrom_of_round hs fuel' io' hmin.symm (by omega) ?_ (hgot.le (min_le_left _ _)) ?_
    · unfold nameChunk
      omega
    · rcases hcase with hscan | ⟨hscan, hfull, io₂, hrest⟩
      · obtain ⟨h1, h2, h3, h4⟩ := scan_run_ok hscan
        refine .inl (scan_run_of h1 ?_ h3 h4)
        have : len < pos + nameChunk := by omega
        omega
      · -- The string goes on behind the chunk, so this chunk is as long in the smaller room.
        obtain ⟨h1, h2, -⟩ := stringFrom_str hs hr fuel io₂ hrest
        have hsame : min k (min (room' - pos) nameChunk) = k := by omega
        rw [hsame]
        refine .inr ⟨hscan, by omega, ?_⟩
        intro io₃
        exact ih fuel' io₂ io₃ (by omega) hrest

theorem stringFrom_of_str (hs : Still m mem acq) (hr : room ≤ 65535) (hlt : len < room)
    (hread : c.readableOk s (BitVec.ofNat w (len + 1)) = true) (hacq : ∀ a, Readable c a → acq a = true)
    (hstr : ∀ p, p < len → mem (s + BitVec.ofNat w p) ≠ 0) (hnul : mem (s + BitVec.ofNat w len) = 0)
    (fuel : Nat) (io : Io w) (hpos : pos ≤ len) (hf : room - pos ≤ fuel) :
      (stringFrom c m none s room fuel pos io).2 = .ok len := by
  induction fuel generalizing pos io with
  | zero => omega
  | succ fuel ih =>
    have hwant : min (room - pos) nameChunk < 2 ^ w := c.lt_of_le (by omega)
    obtain ⟨hok, hkle, hmax⟩ := readableLen_spec c (s + BitVec.ofNat w pos) hwant
    obtain ⟨k, hk⟩ : ∃ k, k = c.readableLen (s + BitVec.ofNat w pos) (min (room - pos) nameChunk) := ⟨_, rfl⟩
    rw [← hk] at hok hkle hmax
    have hge : min (min (room - pos) nameChunk) (len + 1 - pos) ≤ k := by
      refine hmax _ (min_le_left _ _) ?_
      exact readableOk_run hread (c.lt_of_le (by omega)) (by omega)
    have hgot : Got m acq true (s + BitVec.ofNat w pos) k := fun p hp _ => hacq _ (readable_of_run hok (by omega) hp)
    refine stringFrom_of_round hs fuel io hk (by omega) ?_ hgot ?_
    · unfold nameChunk at hge
      omega
    · by_cases hin : len < pos + k
      · exact .inl (scan_run_of hpos hin (fun p _ hp => hstr p hp) hnul)
      · refine .inr ⟨scan_run_none.2 fun p _ hp => hstr p (by omega), by omega, ?_⟩
        intro io'
        exact ih io' (by omega) (by
          have : 0 < k := by
            unfold nameChunk at hge
            omega
          omega)

end Strings

/-! ### The vector -/

section Vectors

variable {vector : BitVec w} {strs : List (List (BitVec 8))}

def slotWord (mem : BitVec w → BitVec 8) (ord : Order w) (vector : BitVec w) (i : Nat) : BitVec w :=
  ord.join (run mem (vector + BitVec.ofNat w (i * (w / 8))) (w / 8))

def SlotOk (c : Caller w n) (m : World w) (acq : BitVec w → Bool) (vector : BitVec w) (i : Nat) : Prop :=
  c.readableOk (vector + BitVec.ofNat w (i * (w / 8))) (BitVec.ofNat w (w / 8)) = true ∧
    Got m acq true (vector + BitVec.ofNat w (i * (w / 8))) (w / 8)

theorem slotIn_still (c : Caller w n) (ord : Order w) (vector : BitVec w) (hs : Still m mem acq) (i : Nat) (io : Io w)
    (x : BitVec w) : (slotIn c m ord vector i io).2 = some x ↔ SlotOk c m acq vector i ∧
    slotWord mem ord vector i = x := by
  obtain ⟨hgot, hbytes⟩ := copyIn_still hs true (vector + BitVec.ofNat w (i * (w / 8))) (w / 8) io
  unfold slotIn SlotOk slotWord
  dsimp only
  by_cases hr : c.readableOk (vector + BitVec.ofNat w (i * (w / 8))) (BitVec.ofNat w (w / 8)) = true
  · rw [if_pos hr, ← hgot]
    by_cases hok : (m.copyIn true (vector + BitVec.ofNat w (i * (w / 8))) (w / 8) io).ok = true
    · rw [hbytes hok]
      simp [hok, hr]
    · simp [hok]
  · rw [if_neg hr]
    simp [hr]

/-- What the first pass has found, from the `i`-th pointer on. -/
def Found (cfg : Config) (c : Caller w n) (m : World w) (mem : BitVec w → BitVec 8) (acq : BitVec w → Bool)
    (ord : Order w) (vector : BitVec w) : Nat → Nat → List (List (BitVec 8)) → Prop
  | i, _, [] => SlotOk c m acq vector i ∧ slotWord mem ord vector i = 0
  | i, used, str :: strs =>
    (SlotOk c m acq vector i ∧ slotWord mem ord vector i ≠ 0 ∧ Str mem (slotWord mem ord vector i) str ∧
      Got m acq true (slotWord mem ord vector i) str.length ∧
      ∀ room, room ≤ cfg.argvMax - used → str.length < room →
        ∀ io, (stringLen c m none (slotWord mem ord vector i) room io).2 = .ok str.length) ∧
    Found cfg c m mem acq ord vector (i + 1) (used + str.length + 1) strs

theorem str_run {s : BitVec w} {len : Nat} (h3 : ∀ p, p < len → mem (s + BitVec.ofNat w p) ≠ 0)
    (h4 : mem (s + BitVec.ofNat w len) = 0) : Str mem s (run mem s len) := by
  refine ⟨?_, ?_, ?_⟩
  · rw [length_run]
  · rw [length_run]
    exact h3
  · rw [length_run]
    exact h4

theorem measure_found (hs : Still m mem acq) (fuel argc used : Nat) (io : Io w) {r : Nat × Nat}
    (h : (measure cfg c m ord vector fuel argc used io).2 = .ok r) :
    ∃ strs, Found cfg c m mem acq ord vector argc used strs ∧ r = (argc + strs.length, used + total strs) := by
  induction fuel generalizing argc used io with
  | zero => cases h
  | succ fuel ih =>
    have hslot := slotIn_still c ord vector hs argc io
    unfold measure at h
    split at h
    · cases h
    next io₁ su heq =>
      rw [heq] at hslot
      obtain ⟨hok, hword⟩ := (hslot su).1 rfl
      split at h
      next hz =>
        cases h
        exact ⟨[], ⟨hok, hword.trans hz⟩, by simp [total]⟩
      next hz =>
        split at h
        · cases h
        next hlim =>
          have hmax := cfg.argvMax_le
          split at h
          · cases h
          next io₂ len hstr =>
            have hlen : (stringFrom c m none su (cfg.argvMax - used) (cfg.argvMax - used) 0 io₁).2 = .ok len := by
              unfold stringLen at hstr
              rw [hstr]
            obtain ⟨-, -, h3, h4, h5⟩ := stringFrom_str hs (by omega) _ io₁ hlen
            obtain ⟨strs, hf, hr⟩ := ih (argc + 1) (used + len + 1) io₂ h
            refine ⟨run mem su len :: strs, ⟨⟨hok, ?_, ?_, ?_, ?_⟩, ?_⟩, ?_⟩
            · rw [hword]
              exact hz
            · rw [hword]
              exact str_run (fun p hp => h3 p (Nat.zero_le p) hp) h4
            · rw [hword, length_run]
              exact fun p hp hg => h5 p (Nat.zero_le p) hp.le (hg.imp (fun h => h.2) id)
            · rw [hword, length_run]
              intro room hroom hlt io'
              exact stringFrom_shrink hs (by omega) hroom hlt _ room io₁ io' (by omega) hlen
            · rw [length_run]
              exact hf
            · rw [hr, total_cons, length_run, List.length_cons]
              exact Prod.ext (by simp only; omega) (by simp only; omega)

theorem writeFrom_found (hs : Still m mem acq) {a : ArgBlock w} {k : Nat} {va : BitVec w} (hmax : a.bytes ≤ cfg.argvMax)
    (hv : a.vector ≠ 0) (i pos : Nat) (b : Nat → BitVec 8) (io : Io w)
      (hf : Found cfg c m mem acq ord a.vector i pos strs) (hi : i + strs.length = a.argc)
    (hpos : pos + total strs = a.bytes) :
    (writeFrom c m ord a k va strs.length i pos b io).2.2 = none ∧
      Laid ord a k va (writeFrom c m ord a k va strs.length i pos b io).2.1 i pos strs := by
  induction strs generalizing i pos b io with
  | nil => exact ⟨rfl, stands_storeWord ord k b (3 + i) 0⟩
  | cons str strs ih =>
    obtain ⟨⟨hok, hne, hstr, hgot, hlen⟩, hf⟩ := hf
    rw [total_cons] at hpos
    rw [List.length_cons] at hi
    have hb := hmax.trans cfg.argvMax_le
    have hslot : (slotIn c m ord a.vector i io).2 = some (slotWord mem ord a.vector i) :=
        (slotIn_still c ord a.vector hs i io _).2 ⟨hok, rfl⟩
    rw [List.length_cons]
    unfold writeFrom
    dsimp only
    rw [if_neg hv]
    split
    next io₁ heq =>
      rw [heq] at hslot
      cases hslot
    next io₁ su heq =>
      rw [heq] at hslot
      have hsu : su = slotWord mem ord a.vector i := Option.some.inj hslot
      have hl := hlen (a.bytes - pos) (by omega) (by omega) io₁
      rw [← hsu] at hl hstr hgot
      split
      next io₂ e hstring =>
        rw [hstring] at hl
        cases hl
      next io₂ len hstring =>
        rw [hstring] at hl
        have hl : len = str.length := by
          injection hl
        subst hl
        obtain ⟨hiff, hbytes⟩ := copyIn_still hs true su str.length io₂
        have hcopied := hiff.2 hgot
        rw [if_pos hcopied, hbytes hcopied, hstr.bytes]
        obtain ⟨h1, h2⟩ := ih (i + 1) (pos + str.length + 1)
          (storeString a k (storeWord ord k b (3 + i) (va + BitVec.ofNat w (a.strings + pos))) pos str)
            (m.copyIn true su str.length io₂).io hf
          (by omega) (by omega)
        refine ⟨h1, laid_cons b (by omega) rfl rfl ?_ h2⟩
        exact (writeFrom_spec c m ord k va hb strs.length (i + 1) (pos + str.length + 1) _ _ (by omega) (by omega)
          fun h => absurd h hv).kept

/-- The caller's memory holds the strings, by the vector. -/
structure Vector (mem : BitVec w → BitVec 8) (ord : Order w) (vector : BitVec w) (strs : List (List (BitVec 8))) : Prop where
  string : ∀ i (h : i < strs.length), slotWord mem ord vector i ≠ 0 ∧ Str mem (slotWord mem ord vector i) strs[i]
  null : slotWord mem ord vector strs.length = 0

theorem Found.strings {i used : Nat} (hf : Found cfg c m mem acq ord vector i used strs) :
    (∀ j (h : j < strs.length), slotWord mem ord vector (i + j) ≠ 0 ∧ Str mem (slotWord mem ord vector (i + j)) strs[j]) ∧
      slotWord mem ord vector (i + strs.length) = 0 := by
  induction strs generalizing i used with
  | nil => exact ⟨fun j h => absurd h (Nat.not_lt_zero j), hf.2⟩
  | cons str strs ih =>
    obtain ⟨⟨-, hne, hstr, -⟩, hf⟩ := hf
    obtain ⟨h1, h2⟩ := ih hf
    refine ⟨?_, ?_⟩
    · intro j hj
      cases j with
      | zero => exact ⟨hne, hstr⟩
      | succ j =>
        have hj := h1 j (Nat.lt_of_succ_lt_succ hj)
        rwa [show i + 1 + j = i + (j + 1) by omega] at hj
    · rw [List.length_cons, show i + (strs.length + 1) = i + 1 + strs.length by omega]
      exact h2

/-- The caller may read the vector and each of its strings, and what it may read can be acquired. -/
structure Accessible (c : Caller w n) (mem : BitVec w → BitVec 8) (acq : BitVec w → Bool) (ord : Order w) (vector : BitVec w)
    (strs : List (List (BitVec 8))) : Prop where
  slot : ∀ i, i ≤ strs.length → c.readableOk (vector + BitVec.ofNat w (i * (w / 8))) (BitVec.ofNat w (w / 8)) = true
  string : ∀ i (h : i < strs.length), c.readableOk (slotWord mem ord vector i) (BitVec.ofNat w (strs[i].length + 1)) = true
  acquire : ∀ a, Readable c a → acq a = true

theorem Accessible.slotOk (h : Accessible c mem acq ord vector strs) {i : Nat} (hi : i ≤ strs.length) : SlotOk c m acq vector i :=
  ⟨h.slot i hi, fun _ hp _ => h.acquire _ (readable_of_run (h.slot i hi) word_lt hp)⟩

theorem measure_of_vector (hs : Still m mem acq) (hv : Vector mem ord vector strs) (ha : Accessible c mem acq ord vector strs)
    (hargc : strs.length ≤ cfg.maxArgc) (hsum : total strs ≤ cfg.argvMax) (fuel i : Nat) (io : Io w) (hi : i ≤ strs.length)
    (hfuel : strs.length < fuel + i) :
    (measure cfg c m ord vector fuel i (total (strs.take i)) io).2 = .ok (strs.length, total strs) := by
  induction fuel generalizing i io with
  | zero => omega
  | succ fuel ih =>
    have hslot := (slotIn_still c ord vector hs i io _).2 ⟨ha.slotOk hi, rfl⟩
    unfold measure
    split
    next io₁ heq =>
      rw [heq] at hslot
      cases hslot
    next io₁ su heq =>
      rw [heq] at hslot
      have hsu : su = slotWord mem ord vector i := Option.some.inj hslot
      rcases hi.eq_or_lt with rfl | hlt
      · rw [if_pos (hsu.trans hv.null), List.take_length]
      · obtain ⟨hne, hstr⟩ := hv.string i hlt
        have htake := total_take_succ hlt
        have hle := total_take_le strs (i := i + 1) (j := strs.length) hlt
        rw [List.take_length] at hle
        have hmax := cfg.argvMax_le
        rw [if_neg (hsu ▸ hne), if_neg (not_or.2 ⟨by omega, by omega⟩)]
        have hlen : (stringLen c m none su (cfg.argvMax - total (strs.take i)) io₁).2 = .ok strs[i].length := by
          rw [hsu]
          exact stringFrom_of_str hs (by omega) (by omega) (ha.string i hlt) ha.acquire hstr.nonzero hstr.nul _ io₁
            (Nat.zero_le _) (by omega)
        split
        next io₂ e hstring =>
          rw [hstring] at hlen
          cases hlen
        next io₂ len hstring =>
          rw [hstring] at hlen
          have hlen : len = strs[i].length := by
            injection hlen
          rw [hlen, ← htake]
          exact ih (i + 1) io₂ hlt (by omega)

end Vectors

end KickOS.Argv
