import Mathlib.Tactic

/-! Single-producer rings with free-running counters.

A ring is a buffer of `depth` cells and three counters that wrap at `W`: how far the producer has
written, how far it has published, and how far the consumer has drained. `contents` reads the entries
between drained and written off the cells. While the ring is never asked to hold more than `depth`
entries, a write is an append and a drain takes the front, whatever the counters wrapped to. -/

namespace Lib

structure Ring (α : Type*) where
  cells : Nat → α
  staged : Nat
  head : Nat
  tail : Nat

namespace Ring

/-- A depth that is a power of two and divides the counters' modulus properly. -/
structure Fits (W depth : Nat) : Prop where
  pow : ∃ d, depth = 2 ^ d
  dvd : depth ∣ W
  lt : depth < W

def cell (depth s : Nat) : Nat := s &&& (depth - 1)

/-- How far counter `b` runs ahead of counter `a`. -/
def ahead (W a b : Nat) : Nat := (b + (W - a)) % W

variable {α : Type*} {W depth : Nat}

section Counters

variable {a b s t i : Nat}

theorem Fits.cell_eq (h : Fits W depth) (s : Nat) : cell depth s = s % depth := by
  obtain ⟨d, rfl⟩ := h.pow
  exact Nat.and_two_pow_sub_one_eq_mod s d

theorem Fits.cell_mod (h : Fits W depth) (s : Nat) : cell depth (s % W) = cell depth s := by
  rw [h.cell_eq, h.cell_eq, Nat.mod_mod_of_dvd s h.dvd]

theorem ahead_self (ha : a < W) : ahead W a a = 0 := by
  have : a + (W - a) = W := by omega
  rw [ahead, this, Nat.mod_self]

theorem ahead_lt (hW : 0 < W) : ahead W a b < W := Nat.mod_lt _ hW

theorem add_ahead (ha : a < W) (hb : b < W) : (a + ahead W a b) % W = b := by
  rw [ahead, Nat.add_mod_mod, show a + (b + (W - a)) = b + W by omega, Nat.add_mod_right,
    Nat.mod_eq_of_lt hb]

theorem ahead_eq_zero (ha : a < W) (hb : b < W) : ahead W a b = 0 ↔ a = b := by
  constructor
  · intro h
    have := add_ahead ha hb
    rwa [h, Nat.add_zero, Nat.mod_eq_of_lt ha] at this
  · rintro rfl
    exact ahead_self ha

theorem ahead_of_add (ha : a < W) (hi : i < W) : ahead W a ((a + i) % W) = i := by
  rw [ahead, Nat.mod_add_mod, show a + i + (W - a) = i + W by omega, Nat.add_mod_right,
    Nat.mod_eq_of_lt hi]

theorem ahead_succ_right (ha : a < W) (hb : b < W) (h : ahead W a b + 1 < W) :
    ahead W a ((b + 1) % W) = ahead W a b + 1 := by
  have hb' : (b + 1) % W = (a + (ahead W a b + 1)) % W := by
    conv_lhs => rw [← add_ahead ha hb]
    rw [Nat.mod_add_mod, Nat.add_assoc]
  rw [hb']
  exact ahead_of_add ha h

theorem ahead_succ_left (ha : a < W) (hb : b < W) (h : ahead W a b ≠ 0) :
    ahead W ((a + 1) % W) b = ahead W a b - 1 := by
  have hlt : ahead W a b < W := ahead_lt (by omega)
  have hb' : b = ((a + 1) % W + (ahead W a b - 1)) % W := by
    rw [Nat.mod_add_mod, show a + 1 + (ahead W a b - 1) = a + ahead W a b by omega, add_ahead ha hb]
  conv_lhs => rw [hb']
  exact ahead_of_add (Nat.mod_lt _ (by omega)) (by omega)

end Counters

section Contents

variable (W depth)

/-- The entries written and not drained, oldest first. -/
def contents (r : Ring α) : List α :=
  (List.range (ahead W r.tail r.staged)).map fun i => r.cells (cell depth (r.tail + i))

/-- The counters are in range and in order, and the entries fit the cells. -/
structure Wf (r : Ring α) : Prop where
  staged : r.staged < W
  head : r.head < W
  tail : r.tail < W
  shown : ahead W r.tail r.head ≤ ahead W r.tail r.staged
  fits : ahead W r.tail r.staged ≤ depth

def stage (r : Ring α) (e : α) : Ring α :=
  { r with
    cells := Function.update r.cells (cell depth r.staged) e
    staged := (r.staged + 1) % W }

/-- Let the consumer see what is written. -/
def publish (r : Ring α) : Ring α := { r with head := r.staged }

def front? (r : Ring α) : Option α :=
  if r.tail = r.head then none else some (r.cells (cell depth r.tail))

def retire (r : Ring α) : Ring α := { r with tail := (r.tail + 1) % W }

variable {W depth}
variable {r : Ring α} {e : α}

@[simp] theorem length_contents : (r.contents W depth).length = ahead W r.tail r.staged := by
  simp [contents]

@[simp] theorem publish_contents : r.publish.contents W depth = r.contents W depth := rfl

theorem Wf.publish (h : r.Wf W depth) : r.publish.Wf W depth :=
  ⟨h.staged, h.staged, h.tail, Nat.le_refl _, h.fits⟩

theorem cell_ne_staged (hF : Fits W depth) (h : r.Wf W depth) (hlt : ahead W r.tail r.staged < depth)
    {i : Nat} (hi : i < ahead W r.tail r.staged) : cell depth (r.tail + i) ≠ cell depth r.staged := by
  have hs : cell depth r.staged = cell depth (r.tail + ahead W r.tail r.staged) := by
    conv_lhs => rw [← add_ahead h.tail h.staged]
    exact hF.cell_mod _
  rw [hs, hF.cell_eq, hF.cell_eq]
  intro heq
  have hmod : i ≡ ahead W r.tail r.staged [MOD depth] := Nat.ModEq.add_left_cancel' r.tail heq
  rw [Nat.ModEq, Nat.mod_eq_of_lt (by omega), Nat.mod_eq_of_lt hlt] at hmod
  omega

theorem stage_contents (hF : Fits W depth) (h : r.Wf W depth)
    (hlt : (r.contents W depth).length < depth) :
    (r.stage W depth e).contents W depth = r.contents W depth ++ [e] := by
  rw [length_contents] at hlt
  have hn : ahead W r.tail ((r.staged + 1) % W) = ahead W r.tail r.staged + 1 :=
    ahead_succ_right h.tail h.staged (by have := hF.lt; omega)
  have hlast : cell depth (r.tail + ahead W r.tail r.staged) = cell depth r.staged := by
    conv_rhs => rw [← add_ahead h.tail h.staged]
    exact (hF.cell_mod _).symm
  simp only [contents, stage, hn, List.range_succ, List.map_append, List.map_cons, List.map_nil, hlast,
    Function.update_self]
  congr 1
  apply List.map_congr_left
  intro i hi
  exact Function.update_of_ne (cell_ne_staged hF h hlt (List.mem_range.1 hi)) _ _

theorem Wf.stage (hF : Fits W depth) (h : r.Wf W depth)
    (hlt : (r.contents W depth).length < depth) : (r.stage W depth e).Wf W depth := by
  rw [length_contents] at hlt
  have hW : 0 < W := lt_of_le_of_lt (Nat.zero_le _) h.tail
  have hn : ahead W r.tail ((r.staged + 1) % W) = ahead W r.tail r.staged + 1 :=
    ahead_succ_right h.tail h.staged (by have := hF.lt; omega)
  refine ⟨Nat.mod_lt _ hW, h.head, h.tail, ?_, ?_⟩
  · show ahead W r.tail r.head ≤ ahead W r.tail ((r.staged + 1) % W)
    have := h.shown
    omega
  · show ahead W r.tail ((r.staged + 1) % W) ≤ depth
    omega

theorem shown_ne_zero (h : r.Wf W depth) (hf : r.front? depth = some e) :
    ahead W r.tail r.head ≠ 0 := by
  intro h0
  rw [ahead_eq_zero h.tail h.head] at h0
  simp [front?, h0] at hf

theorem retire_contents (hF : Fits W depth) (h : r.Wf W depth) (hf : r.front? depth = some e) :
    r.contents W depth = e :: (r.retire W).contents W depth := by
  have h0 := shown_ne_zero h hf
  have hs : ahead W r.tail r.staged ≠ 0 := by have := h.shown; omega
  have he : r.cells (cell depth r.tail) = e := by
    rw [front?] at hf
    split_ifs at hf
    exact Option.some.inj hf
  obtain ⟨k, hk⟩ := Nat.exists_eq_succ_of_ne_zero hs
  have hk' : ahead W ((r.tail + 1) % W) r.staged = k := by
    rw [ahead_succ_left h.tail h.staged hs, hk, Nat.succ_sub_one]
  simp only [contents, retire, hk, hk', List.range_succ_eq_map, List.map_cons, List.map_map,
    Nat.add_zero, he]
  congr 1
  apply List.map_congr_left
  intro i _
  show r.cells (cell depth (r.tail + (i + 1))) = r.cells (cell depth ((r.tail + 1) % W + i))
  have hc : cell depth ((r.tail + 1) % W + i) = cell depth (r.tail + (i + 1)) := by
    rw [hF.cell_eq, hF.cell_eq, Nat.add_mod, Nat.mod_mod_of_dvd _ hF.dvd, ← Nat.add_mod]
    congr 1
    omega
  rw [hc]

theorem Wf.retire (h : r.Wf W depth) (hf : r.front? depth = some e) : (r.retire W).Wf W depth := by
  have h0 := shown_ne_zero h hf
  have hs : ahead W r.tail r.staged ≠ 0 := by have := h.shown; omega
  have hW : 0 < W := lt_of_le_of_lt (Nat.zero_le _) h.tail
  refine ⟨h.staged, h.head, Nat.mod_lt _ hW, ?_, ?_⟩
  · show ahead W ((r.tail + 1) % W) r.head ≤ ahead W ((r.tail + 1) % W) r.staged
    rw [ahead_succ_left h.tail h.head h0, ahead_succ_left h.tail h.staged hs]
    have := h.shown
    omega
  · show ahead W ((r.tail + 1) % W) r.staged ≤ depth
    rw [ahead_succ_left h.tail h.staged hs]
    have := h.fits
    omega

end Contents

end Ring

end Lib
