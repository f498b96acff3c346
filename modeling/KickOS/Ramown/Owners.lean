import KickOS.Arena.Replay
import KickOS.Ramown.Model
import KickOS.Slot.Handles

/-! Every chain holds what was recorded for its task record, and a task names what its own incarnation recorded. -/

namespace KickOS.Ramown

open Arena Lib Lib.Linked Lib.Extent
open Function (update_of_ne update_self)

variable {w : Nat} {b : Board w} {s : St w} {e : Entry w}

/-! ### Handles -/

def place (t : Nat) : BitVec 32 := BitVec.ofNat 32 t + 1

theorem toNat_place {t : Nat} (ht : t < 0xffff) : (place t).toNat = t + 1 := by
  have h1 : (1 : BitVec 32).toNat = 1 := rfl
  rw [place, BitVec.toNat_add, BitVec.toNat_ofNat, h1]
  omega

theorem handle_ne_zero {t : Nat} (ht : t < 0xffff) (g : BitVec 16) : Slot.handlePack g (place t) ≠ 0 := by
  intro h
  have hi := Slot.handleIndex_pack (g := g) (i := place t) (by rw [toNat_place ht]; omega)
  rw [h] at hi
  have := congrArg BitVec.toNat hi
  rw [toNat_place ht] at this
  exact absurd this (by simp [Slot.handleIndex])

/-- Of one task record, the handles of two incarnations differ until the generation has come round. -/
theorem handle_eq_iff {t m n : Nat} (ht : t < 0xffff) (hm : m < 65536) (hn : n < 65536) :
    Slot.handlePack (BitVec.ofNat 16 m) (place t) = Slot.handlePack (BitVec.ofNat 16 n) (place t) ↔ m = n := by
  refine ⟨fun h => ?_, fun h => by rw [h]⟩
  have hlt : (place t).toNat < 2 ^ 16 := by rw [toNat_place ht]; omega
  have hg := congrArg Slot.handleGen h
  rw [Slot.handleGen_pack hlt, Slot.handleGen_pack hlt] at hg
  have := congrArg BitVec.toNat hg
  rw [BitVec.toNat_ofNat, BitVec.toNat_ofNat] at this
  omega

/-! ### The account -/

theorem record?_succ {i : Nat} (hi : i < 0xffff) : record? (BitVec.ofNat 16 (i + 1)) = some i := by
  have h : (BitVec.ofNat 16 (i + 1)).toNat = i + 1 := by
    rw [BitVec.toNat_ofNat]
    omega
  have hne : BitVec.ofNat 16 (i + 1) ≠ 0 := by
    intro h0
    rw [h0] at h
    cases h
  rw [record?, if_neg hne, h, Nat.add_sub_cancel]

/-- A record holds the block an entry tells of. -/
structure Holds (x : RamBlock w) (e : Entry w) : Prop where
  base : x.base = e.base
  size : x.size.setWidth w = e.size
  owner : x.owner = Slot.handlePack (BitVec.ofNat 16 e.life) (place e.task)

/-- The block of an entry lies in memory, and an empty one is not at address 0. -/
structure Entry.Sound (b : Board w) (e : Entry w) : Prop where
  task : e.task < b.tasks
  fits : e.base.toNat + e.size.toNat ≤ 2 ^ w
  some : e.base ≠ 0 ∨ e.size ≠ 0

/-- The table as its history accounts for it. -/
structure Account (b : Board w) (s : St w) : Prop where
  arena : s.table.arena.Sound
  fresh : s.table.fresh.toNat = s.log.length
  room : s.log.length ≤ b.count
  gen : ∀ t, s.table.gen t = BitVec.ofNat 16 (s.deaths t)
  holds : ∀ i e, s.log[i]? = some e → Holds (s.table.blocks i) e
  sound : ∀ e ∈ s.log, e.Sound b
  life : ∀ e ∈ s.log, e.life ≤ s.deaths e.task
  chain : ∀ t, Seg s.table.next (record? (s.table.head t)) (s.recorded t).reverse none
  spent : ∀ e ∈ s.log, e.arena = true → e.base.toNat + e.size.toNat ≤ s.table.arena.cursor
  apart : s.log.Pairwise fun e f => e.arena = true → f.arena = true → e.base.toNat + e.size.toNat ≤ f.base.toNat

theorem account_init {a : Ram w} (ha : a.Sound) : Account b { table := { arena := a } } where
  arena := ha
  fresh := rfl
  room := Nat.zero_le _
  gen _ := rfl
  holds _ _ h := by cases h
  sound _ h := by cases h
  life _ h := by cases h
  chain _ := rfl
  spent _ h := by cases h
  apart := List.Pairwise.nil

theorem mem_recorded {t i : Nat} : i ∈ s.recorded t ↔ ∃ e, s.log[i]? = some e ∧ e.task = t := by
  unfold St.recorded
  rw [List.mem_filter, List.mem_range, decide_eq_true_iff, Option.map_eq_some_iff]
  constructor
  · rintro ⟨-, h⟩
    exact h
  · rintro ⟨e, he, ht⟩
    exact ⟨(List.getElem?_eq_some_iff.1 he).1, e, he, ht⟩

theorem recorded_length_le (s : St w) (t : Nat) : (s.recorded t).length ≤ s.log.length :=
  (List.length_filter_le ..).trans (by rw [List.length_range])

theorem recorded_append (s : St w) (table : Table w) (e : Entry w) (t : Nat) :
    ({ s with table := table, log := s.log ++ [e] } : St w).recorded t = s.recorded t ++ if e.task = t then
      [s.log.length] else [] := by
  unfold St.recorded
  dsimp only
  rw [List.length_append, List.length_singleton, List.range_succ, List.filter_append]
  congr 1
  · refine List.filter_congr fun i hi => ?_
    rw [List.getElem?_append_left (List.mem_range.1 hi)]
  · rw [List.filter_singleton, List.getElem?_concat_length, Option.map_some]
    rcases eq_or_ne e.task t with rfl | hne
    · rw [if_pos rfl, decide_eq_true rfl]
      rfl
    · rw [if_neg hne, decide_eq_false fun h => hne (Option.some.inj h)]
      rfl

theorem Account.setArena (h : Account b s) {a : Ram w} (ha : a.Sound) (hc : s.table.arena.cursor ≤ a.cursor) :
    Account b { s with table := { s.table with arena := a } } :=
  { h with
    arena := ha
    spent := fun e he hx => (h.spent e he hx).trans hc }

theorem Account.record (h : Account b s) (hroom : s.log.length < b.count) (e : Entry w) {size : BitVec 32} (he : e.Sound b)
    (hsize : size.setWidth w = e.size) (hlife : e.life = s.deaths e.task)
    (hspent : e.arena = true → e.base.toNat + e.size.toNat ≤ s.table.arena.cursor)
    (hafter : e.arena = true → ∀ f ∈ s.log, f.arena = true → f.base.toNat + f.size.toNat ≤ e.base.toNat) :
    Account b { s with table := s.table.record e.task s.log.length e.base size, log := s.log ++ [e] } := by
  have hcount := b.count_narrow
  have hmem : ∀ {f}, f ∈ s.log ++ [e] → f ∈ s.log ∨ f = e := fun hf => by simpa using hf
  refine ⟨h.arena, ?_, ?_, h.gen, ?_, ?_, ?_, ?_, ?_, ?_⟩
  · rw [List.length_append, List.length_singleton, ← h.fresh]
    refine BitVec.toNat_add_of_lt ?_
    rw [h.fresh]
    exact Nat.lt_of_le_of_lt (Nat.succ_le_of_lt hroom) (hcount.trans (by decide))
  · rw [List.length_append]
    exact hroom
  · intro i f hi
    rcases Nat.lt_or_ge i s.log.length with hlt | hge
    · rw [List.getElem?_append_left hlt] at hi
      have := h.holds i f hi
      dsimp only [Table.record]
      rw [update_of_ne hlt.ne]
      exact this
    · rw [List.getElem?_append_right hge, List.getElem?_singleton] at hi
      split at hi
      next h0 =>
        cases hi
        obtain rfl : i = s.log.length := Nat.le_antisymm (Nat.sub_eq_zero_iff_le.1 h0) hge
        dsimp only [Table.record]
        rw [update_self]
        refine ⟨rfl, hsize, ?_⟩
        rw [hlife, ← h.gen]
        rfl
      · cases hi
  · intro f hf
    rcases hmem hf with hf | rfl
    · exact h.sound f hf
    · exact he
  · intro f hf
    rcases hmem hf with hf | rfl
    · exact h.life f hf
    · exact hlife.le
  · intro t
    -- the records below are as they were
    have hold : Seg (s.table.record e.task s.log.length e.base size).next (record? (s.table.head t))
        (s.recorded t).reverse none := by
      refine (h.chain t).congr fun i hi => ?_
      obtain ⟨f, hf, -⟩ := mem_recorded.1 (List.mem_reverse.1 hi)
      have hne : i ≠ s.log.length := (List.getElem?_eq_some_iff.1 hf).1.ne
      dsimp only [Table.next, Table.record]
      rw [update_of_ne hne]
    rw [recorded_append]
    rcases eq_or_ne e.task t with rfl | hne
    · rw [if_pos rfl, List.reverse_append, List.reverse_singleton, List.singleton_append]
      refine ⟨?_, ?_⟩
      · dsimp only [Table.record]
        rw [update_self]
        exact record?_succ (hroom.trans hcount)
      · have : (s.table.record e.task s.log.length e.base size).next s.log.length = record? (s.table.head e.task) := by
          dsimp only [Table.next, Table.record]
          rw [update_self]
        rw [this]
        exact hold
    · rw [if_neg hne, List.append_nil]
      dsimp only [Table.record] at hold ⊢
      rw [update_of_ne hne.symm]
      exact hold
  · intro f hf hx
    rcases hmem hf with hf | rfl
    · exact h.spent f hf hx
    · exact hspent hx
  · refine List.pairwise_append.2 ⟨h.apart, List.pairwise_singleton .., fun f hf g hg hx hy => ?_⟩
    obtain rfl := List.mem_singleton.1 hg
    exact hafter hy f hf hx

/-! ### The calls -/

theorem Account.freeBlock_some (h : Account b s) {i : Nat} (hf : s.table.freeBlock b = some i) :
    i = s.log.length ∧ s.log.length < b.count := by
  unfold Table.freeBlock at hf
  rw [h.fresh] at hf
  split at hf
  · cases hf
  next hlt => exact ⟨(Option.some.inj hf).symm, Nat.lt_of_not_le hlt⟩

theorem Account.alloc_cases (h : Account b s) (hw : 32 ≤ w) (owner : Option (Fin b.tasks)) (size : BitVec w) (budget : Budget) :
    s.table.alloc b owner size budget = (s.table, 0) ∨
      ∃ t a p, owner = some t ∧ s.log.length < b.count ∧
        ((regionSize b.seams size).setWidth 32).setWidth w = regionSize b.seams size ∧ p ≠ 0 ∧ a.Sound ∧
        s.table.arena.cursor ≤ p.toNat ∧ p.toNat + (regionSize b.seams size).toNat = a.cursor ∧
        s.table.alloc b owner size budget =
          (({ s.table with arena := a } : Table w).record t s.log.length p ((regionSize b.seams size).setWidth 32), p) := by
  unfold Table.alloc
  split
  · exact .inl rfl
  next t =>
    split
    · exact .inl rfl
    dsimp only
    split
    · exact .inl rfl
    next hword =>
      split
      · exact .inl rfl
      split
      · exact .inl rfl
      next i hi =>
        obtain ⟨rfl, hlt⟩ := h.freeBlock_some hi
        rcases h.arena.alloc_cases hw b.seams size with heq | ⟨a, p, heq, hp, ha, -, -, hle, hend⟩
        · rw [heq, if_pos rfl]
          exact .inl rfl
        · rw [heq, if_neg hp]
          exact .inr ⟨t, a, p, rfl, hlt, (not_not.1 hword).symm, hp, ha, hle, hend, rfl⟩

theorem Account.alloc (h : Account b s) (hw : 32 ≤ w) (owner : Option (Fin b.tasks)) (size : BitVec w) (budget : Budget) :
    Account b (s.step (.alloc owner size budget)) := by
  dsimp only [St.step]
  rcases h.alloc_cases hw owner size budget with heq | ⟨t, a, p, rfl, hlt, hsize, hp, ha, hle, hend, heq⟩
  · rw [heq]
    have hnone : s.noted owner 0 (regionSize b.seams size) true (decide ((0 : BitVec w) ≠ 0)) = [] := by
      rw [decide_eq_false (not_not.2 rfl)]
      cases owner <;> rfl
    rw [hnone, List.append_nil]
    exact h
  · rw [heq]
    dsimp only [St.noted]
    rw [decide_eq_true hp, if_pos rfl]
    have hcur := Nat.le_add_right p.toNat (regionSize b.seams size).toNat
    have h' := h.setArena ha (hle.trans (hend ▸ hcur))
    refine h'.record hlt ⟨t, s.deaths t, p, regionSize b.seams size, true⟩ ⟨t.isLt, ?_, .inl hp⟩ hsize rfl (fun _ => hend.le)
      fun _ f hf hx => (h.spent f hf hx).trans hle
    exact hend.le.trans ((Nat.add_le_add_left ha.used _).trans ha.fits)

theorem Account.seat_cases (h : Account b s) (owner : Option (Fin b.tasks)) (share : Window w) (budget : Budget) :
    s.table.seat b owner share budget = (s.table, false) ∨
      ∃ t, owner = some t ∧ s.log.length < b.count ∧ share.size ≠ 0 ∧ (share.size.setWidth 32).setWidth w = share.size ∧
        s.table.seat b owner share budget = (s.table.record t s.log.length share.base (share.size.setWidth 32), true) := by
  unfold Table.seat
  split
  · exact .inl rfl
  next t =>
    split
    · exact .inl rfl
    next hpass =>
      obtain ⟨-, hsize, -, hword, -⟩ := not_or.1 hpass |>.imp id fun hrest =>
        (not_or.1 hrest).imp id fun hrest => (not_or.1 hrest).imp id fun hrest => not_or.1 hrest
      split
      · exact .inl rfl
      split
      · exact .inl rfl
      next i hi =>
        obtain ⟨rfl, hlt⟩ := h.freeBlock_some hi
        exact .inr ⟨t, rfl, hlt, hsize, (not_not.1 hword).symm, rfl⟩

theorem Account.seat (h : Account b s) (owner : Option (Fin b.tasks)) (share : Window w) (budget : Budget) :
    Account b (s.step (.seat owner share budget)) := by
  dsimp only [St.step]
  rcases h.seat_cases owner share budget with heq | ⟨t, rfl, hlt, hne, hsize, heq⟩
  · rw [heq]
    have hnone : s.noted owner share.base share.size false false = [] := by cases owner <;> rfl
    rw [hnone, List.append_nil]
    exact h
  · rw [heq]
    dsimp only [St.noted]
    rw [if_pos rfl]
    exact h.record hlt ⟨t, s.deaths t, share.base, share.size, false⟩ ⟨t.isLt, share.fits, .inr hne⟩ hsize rfl
      (fun hx => absurd hx Bool.false_ne_true) fun hx => absurd hx Bool.false_ne_true

theorem Account.free (h : Account b s) (t : Fin b.tasks) : Account b (s.step (.free t)) := by
  refine { h with gen := fun u => ?_, life := fun e he => ?_ }
  · dsimp only [St.step, Table.freeTask]
    rcases eq_or_ne u t with rfl | hne
    · rw [update_self, update_self, h.gen]
      exact (BitVec.ofNat_add ..).symm
    · rw [update_of_ne hne, update_of_ne hne]
      exact h.gen u
  · refine (h.life e he).trans ?_
    dsimp only [St.step]
    rcases eq_or_ne e.task t with heq | hne
    · rw [heq, update_self]
      exact Nat.le_succ _
    · rw [update_of_ne hne]

theorem Account.step (h : Account b s) (hw : 32 ≤ w) (op : Op b) : Account b (s.step op) := by
  cases op with
  | alloc owner size budget => exact h.alloc hw owner size budget
  | seat owner share budget => exact h.seat owner share budget
  | free t => exact h.free t
  | kernel size =>
    dsimp only [St.step]
    rcases h.arena.alloc_cases hw b.seams size with heq | ⟨a, p, heq, -, ha, -, -, hle, hend⟩
    · rw [heq]
      exact h
    · rw [heq]
      exact h.setArena ha (hle.trans (hend ▸ Nat.le_add_right ..))

theorem Account.run (h : Account b s) (hw : 32 ≤ w) (ops : List (Op b)) : Account b (s.run ops) := by
  induction ops generalizing s with
  | nil => exact h
  | cons op ops ih => exact ih (h.step hw op)

/-! ### Naming -/

theorem Account.chain_eq (h : Account b s) (t : Nat) : s.table.chain b t = (s.recorded t).reverse :=
  (h.chain t).nodes_eq (by rw [List.length_reverse]; exact (recorded_length_le s t).trans h.room)

theorem window_iff {base rsz : BitVec w} (he : e.Sound b) (hpos : 0 < rsz.toNat) (hfit : base.toNat + rsz.toNat ≤ 2 ^ w) :
    (e.base ≤ base ∧ base + rsz - 1 ≤ e.base + e.size - 1) ↔ Set.Ico base.toNat (base.toNat + rsz.toNat) ⊆ e.bytes := by
  have hfits := he.fits
  rw [Entry.bytes, Set.Ico_subset_Ico_iff (by omega), BitVec.le_def, BitVec.le_def, toNat_last hpos hfit]
  rcases Nat.eq_zero_or_pos e.size.toNat with hz | hsize
  · -- an empty block is not at address 0, so its last address is below its first
    have hsz : e.size = 0 := BitVec.eq_of_toNat_eq hz
    have hb : 0 < e.base.toNat := toNat_pos (he.some.resolve_right (not_not.2 hsz))
    have hlast : (e.base + e.size - 1).toNat = e.base.toNat - 1 := by
      rw [hsz, BitVec.ofNat_eq_ofNat, BitVec.add_zero]
      exact toNat_pred hb
    rw [hlast]
    omega
  · rw [toNat_last hsize hfits]
    omega

theorem Account.nameable_iff (h : Account b s) (hd : ∀ t, s.deaths t < 65536) (t : Fin b.tasks) (base size : BitVec w) :
    s.table.nameable b (some t) base size = true ↔
      size ≠ 0 ∧ b.grantExtent size ≠ 0 ∧
        ∃ e ∈ s.log, e.task = t ∧ e.life = s.deaths t ∧
          Set.Ico base.toNat (base.toNat + (b.grantExtent size).toNat) ⊆ e.bytes := by
  have ht : (t : Nat) < 0xffff := t.isLt.trans b.tasks_narrow
  have htag : s.table.taskHandle (some t) = Slot.handlePack (BitVec.ofNat 16 (s.deaths t)) (place t) := by
    rw [← h.gen]
    rfl
  unfold Table.nameable
  dsimp only
  rw [htag]
  rcases eq_or_ne size 0 with hs | hs
  · rw [if_pos (.inr hs)]
    exact ⟨fun hx => absurd hx Bool.false_ne_true, fun hx => absurd hs hx.1⟩
  rw [if_neg (not_or.2 ⟨handle_ne_zero ht _, hs⟩)]
  generalize b.grantExtent size = rsz
  rcases eq_or_ne rsz 0 with hr | hr
  · rw [if_pos hr]
    exact ⟨fun hx => absurd hx Bool.false_ne_true, fun hx => absurd hr hx.2.1⟩
  rw [if_neg hr]
  have hpos := toNat_pos hr
  split
  next hwrap =>
    -- no block holds a window that passes the last address
    rw [last_lt_iff hpos] at hwrap
    refine ⟨fun hx => absurd hx Bool.false_ne_true, ?_⟩
    rintro ⟨-, -, e, he, -, -, hsub⟩
    rw [Entry.bytes, Set.Ico_subset_Ico_iff (by omega)] at hsub
    have := (h.sound e he).fits
    omega
  next hwrap =>
    rw [last_lt_iff hpos, Nat.not_lt] at hwrap
    rw [h.chain_eq, List.any_eq_true]
    constructor
    · rintro ⟨i, hi, hall⟩
      obtain ⟨e, he, heq⟩ := mem_recorded.1 (List.mem_reverse.1 hi)
      have hmem := List.mem_of_getElem? he
      have hx := h.holds i e he
      rw [Bool.and_eq_true, Bool.and_eq_true, decide_eq_true_iff, decide_eq_true_iff, decide_eq_true_iff, hx.base, hx.size,
        hx.owner, heq] at hall
      obtain ⟨⟨howner, hlo⟩, hhi⟩ := hall
      have hlife := h.life e hmem
      rw [heq] at hlife
      refine ⟨hs, hr, e, hmem, heq, (handle_eq_iff ht (hlife.trans_lt (hd t)) (hd t)).1 howner, ?_⟩
      exact (window_iff (h.sound e hmem) hpos hwrap).1 ⟨hlo, hhi⟩
    · rintro ⟨-, -, e, he, heq, hlife, hsub⟩
      obtain ⟨i, hi⟩ := List.mem_iff_getElem?.1 he
      have hx := h.holds i e hi
      obtain ⟨hlo, hhi⟩ := (window_iff (h.sound e he) hpos hwrap).2 hsub
      refine ⟨i, List.mem_reverse.2 (mem_recorded.2 ⟨e, hi, heq⟩), ?_⟩
      rw [Bool.and_eq_true, Bool.and_eq_true, decide_eq_true_iff, decide_eq_true_iff, decide_eq_true_iff, hx.base, hx.size,
        hx.owner, heq, hlife]
      exact ⟨⟨rfl, hlo⟩, hhi⟩

/-- After any calls by any tasks, deaths and re-creations: each task record's chain leads through the blocks recorded for it, each
once, the last recorded first, to its end; blocks of the arena are disjoint; while no generation has come round, a window as it is
committed is nameable exactly inside one block of the task's current incarnation; and a call that is refused changes nothing. -/
theorem owners_sound (b : Board w) (hw : 32 ≤ w) {a : Ram w} (ha : a.Sound) (ops : List (Op b)) :
    let s := St.run { table := { arena := a } } ops
    (∀ t, Seg s.table.next (record? (s.table.head t)) (s.recorded t).reverse none ∧ (s.recorded t).Nodup) ∧
    (∀ i e, s.log[i]? = some e → (s.table.blocks i).base = e.base ∧ (s.table.blocks i).size.setWidth w = e.size) ∧
    (s.log.Pairwise fun e f => e.arena = true → f.arena = true → Disjoint e.bytes f.bytes) ∧
    ((∀ t, s.deaths t < 65536) → ∀ (t : Fin b.tasks) base size,
      s.table.nameable b (some t) base size = true ↔
        size ≠ 0 ∧ b.grantExtent size ≠ 0 ∧
          ∃ e ∈ s.log, e.task = t ∧ e.life = s.deaths t ∧
            Set.Ico base.toNat (base.toNat + (b.grantExtent size).toNat) ⊆ e.bytes) ∧
    (∀ base size, s.table.nameable b none base size = false) ∧
    ∀ owner size budget, (s.table.alloc b owner size budget).2 = 0 → (s.table.alloc b owner size budget).1 = s.table := by
  intro s
  have h : Account b s := (account_init ha).run hw ops
  refine ⟨fun t => ⟨h.chain t, ?_⟩, fun i e he => ⟨(h.holds i e he).base, (h.holds i e he).size⟩, ?_, h.nameable_iff,
    fun _ _ => rfl, fun owner size budget hz => ?_⟩
  · exact List.nodup_reverse.1 (h.chain t).nodup
  · refine h.apart.imp fun hle hx hy => ?_
    refine Set.disjoint_left.2 fun x hx1 hx2 => ?_
    have hend := hle hx hy
    exact absurd (hx1.2.trans_le (hend.trans hx2.1)) (lt_irrefl x)
  · rcases h.alloc_cases hw owner size budget with heq | ⟨t, a', p, -, -, -, hp, -, -, -, heq⟩
    · rw [heq]
    · rw [heq] at hz
      exact absurd hz hp

/-- Two tasks and three records over a power-of-two unit. -/
def smallBoard : Board 32 where
  seams := ⟨32, true, 0⟩
  mpu := true
  tasks := 2
  count := 3
  tasks_narrow := by decide
  count_narrow := by decide

/-- A task reserves, dies, and its record's next incarnation reserves as much. -/
def reused : List (Op smallBoard) :=
  [.alloc (some ⟨0, by decide⟩) 100 ⟨2, 1024⟩, .free ⟨0, by decide⟩, .alloc (some ⟨0, by decide⟩) 100 ⟨2, 1024⟩]

theorem owners_sound_reused :
    let s := St.run { table := { arena := ⟨0x20000000, 0x1000, 0⟩ } } reused
    s.log.length = 2 ∧ (s.log.Pairwise fun e f => e.arena = true → f.arena = true → Disjoint e.bytes f.bytes) :=
  ⟨by decide +kernel,
    (owners_sound smallBoard le_rfl (a := ⟨0x20000000, 0x1000, 0⟩) ⟨by decide, by decide, by decide, by decide⟩ reused).2.2.1⟩

end KickOS.Ramown
