import KickOS.Held.Ops

/-! The store behaves as a spool.

Whatever the calls are, the store answers them as the spool does, and a reader is shown the same bytes after each. The
only thing the spool takes from the store is whether a new record, or one more line, has room. -/

namespace KickOS
namespace Held

open Lib.Buffer

variable {r s : Store} {a : Spool} {cs : List (List Byte)} {es pre post : List Entry} {id i : Byte} {dropped : Bool} {key : Key}
  {line : List Byte} {max : Nat}

/-! ### The lines of a record -/

theorem linesOf_append (i : Byte) (es fs : List Entry) : linesOf i (es ++ fs) = linesOf i es ++ linesOf i fs := by
  simp only [linesOf, mine, List.filter_append, List.map_append]

theorem linesOf_cons_mark (i : Byte) : linesOf i (.mark id dropped key :: es) = linesOf i es := by
  by_cases h : id = i
  · rw [linesOf, mine_cons_of_eq (show (Entry.mark id dropped key).id = i from h)]
    rfl
  · rw [linesOf, mine_cons_of_ne (show (Entry.mark id dropped key).id ≠ i from h)]
    rfl

theorem linesOf_cons_line (i : Byte) (bytes : List Byte) :
    linesOf i (.line id bytes :: es) = if id = i then bytes :: linesOf i es else linesOf i es := by
  by_cases h : id = i
  · rw [linesOf, mine_cons_of_eq (show (Entry.line id bytes).id = i from h), if_pos h]
    rfl
  · rw [linesOf, mine_cons_of_ne (show (Entry.line id bytes).id ≠ i from h), if_neg h]
    rfl

theorem flatten_linesOf (i : Byte) (es : List Entry) : (linesOf i es).flatten = lineBytes (mine i es) := by
  induction es with
  | nil => rfl
  | cons e es ih =>
    cases e with
    | mark id dropped key =>
      rw [linesOf_cons_mark, ih]
      by_cases h : id = i
      · rw [mine_cons_of_eq (show (Entry.mark id dropped key).id = i from h)]
        rfl
      · rw [mine_cons_of_ne (show (Entry.mark id dropped key).id ≠ i from h)]
    | line id bytes =>
      rw [linesOf_cons_line]
      by_cases h : id = i
      · rw [if_pos h, mine_cons_of_eq (show (Entry.line id bytes).id = i from h), List.flatten_cons, ih, lineBytes_cons]
        rfl
      · rw [if_neg h, mine_cons_of_ne (show (Entry.line id bytes).id ≠ i from h), ih]

theorem linesOf_others {j : Byte} (h : j ≠ i) (es : List Entry) : linesOf j (others i es) = linesOf j es := by
  have : mine j (others i es) = mine j es := by
    rw [mine, others, List.filter_filter]
    refine List.filter_congr fun e _ => ?_
    by_cases he : e.id = j
    · simp [he, h]
    · simp [he]
  rw [linesOf, this]
  rfl

theorem linesOf_fresh (hm : Marked ∅ es) (h : i ∉ ids es) : linesOf i es = [] := by
  have : mine i es = [] := by
    refine List.filter_eq_nil_iff.mpr fun e he hid => h ?_
    cases e with
    | mark id dropped key => exact ⟨dropped, key, (of_decide_eq_true hid : id = i) ▸ he⟩
    | line id bytes =>
      rw [← (of_decide_eq_true hid : id = i)]
      exact (hm.line_mem he).resolve_left (Set.notMem_empty _)
  rw [linesOf, this]
  rfl

/-! ### What a reader finds -/

theorem Represents.shown (h : Represents r a cs es) : r.consoleHeldReady = a.shown.length ∧ r.consoleHeldData = a.shown := by
  rcases h.taken with ⟨rfl, ht⟩ | ⟨c, cs', rfl, ht⟩
  · have hempty : a.shown = [] := by
      rw [Spool.shown, h.committed]
      rfl
    have hop : r.heldOpen = r.heldTail := h.area.opened
    have hready : r.consoleHeldReady = 0 := by
      rw [Store.consoleHeldReady, if_pos]
      left
      simp [heldRecordFits, hop]
    rw [Store.consoleHeldData, hready, hempty]
    exact ⟨rfl, rfl⟩
  · obtain ⟨hlen, hfits, -⟩ := h.area.first
    have hshown : a.shown = c.drop r.heldTaken := by
      rw [Spool.shown, h.committed]
      rfl
    have hready : r.consoleHeldReady = (c.drop r.heldTaken).length := by
      rw [Store.consoleHeldReady, hfits, hlen, List.length_drop, if_neg]
      simp only [Bool.not_true, Bool.false_eq_true, false_or]
      omega
    have hst : Stands r.buf (r.heldTail + header) c := by
      have hall := h.area.records
      rw [List.flatMap_cons] at hall
      exact (stands_append.mp hall).1.2.2
    rw [← List.take_append_drop r.heldTaken c] at hst
    have hrest := (stands_append.mp hst).2
    rw [List.length_take, Nat.min_eq_left ht.le] at hrest
    rw [hshown]
    refine ⟨hready, ?_⟩
    rw [Store.consoleHeldData, hready]
    exact hrest.slice_eq

/-! ### The records of the writers -/

theorem opened_set_some {es' : List Entry} {o : OpenRecord}
    (h : ∀ key o, a.opened key = some o ↔ ∃ id dropped, Entry.mark id dropped key ∈ es ∧ o = ⟨linesOf id es, dropped⟩)
    (hrest : ∀ k, k ≠ key → ∀ i d, Entry.mark i d k ∈ es' ↔ Entry.mark i d k ∈ es)
    (hlines : ∀ k, k ≠ key → ∀ i d, Entry.mark i d k ∈ es → linesOf i es' = linesOf i es)
    (hkey : ∀ i d, Entry.mark i d key ∈ es' ↔ i = id ∧ d = dropped) (ho : o = ⟨linesOf id es', dropped⟩) :
    ∀ k p, (a.set key (some o)).opened k = some p ↔ ∃ i d, Entry.mark i d k ∈ es' ∧ p = ⟨linesOf i es', d⟩ := by
  intro k p
  by_cases hk : k = key
  · subst hk
    simp only [Spool.set, Function.update_self, Option.some.injEq]
    constructor
    · rintro rfl
      exact ⟨id, dropped, (hkey id dropped).mpr ⟨rfl, rfl⟩, ho⟩
    · rintro ⟨i, d, hm, rfl⟩
      obtain ⟨rfl, rfl⟩ := (hkey i d).mp hm
      exact ho
  · simp only [Spool.set, Function.update_of_ne hk, h]
    constructor
    · rintro ⟨i, d, hm, rfl⟩
      exact ⟨i, d, (hrest k hk i d).mpr hm, by rw [hlines k hk i d hm]⟩
    · rintro ⟨i, d, hm, rfl⟩
      have hm' := (hrest k hk i d).mp hm
      exact ⟨i, d, hm', by rw [hlines k hk i d hm']⟩

theorem Represents.opened_set_none (h : Represents r a cs es) (hmem : Entry.mark id dropped key ∈ es) :
    ∀ k p, (a.set key none).opened k = some p ↔ ∃ i d, Entry.mark i d k ∈ others id es ∧ p = ⟨linesOf i (others id es), d⟩ := by
  intro k p
  by_cases hk : k = key
  · subst hk
    simp only [Spool.set, Function.update_self]
    constructor
    · intro hc
      cases hc
    · rintro ⟨i, d, hm, -⟩
      obtain ⟨hm, hne⟩ := List.mem_filter.mp hm
      exact absurd (h.area.keyed hm hmem) (of_decide_eq_true hne)
  · simp only [Spool.set, Function.update_of_ne hk, h.opened]
    -- another key has another id
    have hne : ∀ {i d}, Entry.mark i d k ∈ es → i ≠ id := by
      rintro i d hm rfl
      exact hk (h.area.marked.mark_unique hm hmem).2
    constructor
    · rintro ⟨i, d, hm, rfl⟩
      exact ⟨i, d, List.mem_filter.mpr ⟨hm, decide_eq_true (hne hm)⟩, by rw [linesOf_others (hne hm)]⟩
    · rintro ⟨i, d, hm, rfl⟩
      have hm := (List.mem_filter.mp hm).1
      exact ⟨i, d, hm, by rw [linesOf_others (hne hm)]⟩

/-! ### Appending -/

theorem Represents.open (h : Represents r a cs es) (hnone : ∀ id dropped, Entry.mark id dropped key ∉ es) (hfresh : id ∉ ids es)
    (harea : Area s cs (es ++ [.mark id false key])) (htaken : s.heldTaken = r.heldTaken) :
    Represents s (a.set key (some ⟨[], false⟩)) cs (es ++ [.mark id false key]) where
  area := harea
  taken := htaken ▸ h.taken
  committed := htaken ▸ h.committed
  opened := by
    have hl (i : Byte) : linesOf i (es ++ [.mark id false key]) = linesOf i es := by
      rw [linesOf_append, linesOf_cons_mark]
      exact List.append_nil _
    have hown : ∀ i d, Entry.mark i d key ∈ es ++ [.mark id false key] ↔ i = id ∧ d = false := by
      intro i d
      rw [List.mem_append, List.mem_singleton]
      constructor
      · rintro (hm | hm)
        · exact absurd hm (hnone i d)
        · cases hm
          exact ⟨rfl, rfl⟩
      · rintro ⟨rfl, rfl⟩
        exact Or.inr rfl
    refine opened_set_some h.opened ?_ (fun k _ i d _ => hl i) hown ?_
    · intro k hk i d
      rw [List.mem_append, List.mem_singleton]
      refine or_iff_left fun hc => ?_
      cases hc
      exact hk rfl
    · rw [hl, linesOf_fresh h.area.marked hfresh]

theorem Represents.addLine (line : List Byte) (h : Represents r a cs (pre ++ .mark id dropped key :: post)) (hmax : max < 65536) :
    Represents (r.addLine (r.heldOpen + (encodeAll pre).length) line max)
      (a.set key (some ((⟨linesOf id (pre ++ .mark id dropped key :: post), dropped⟩ : OpenRecord).grow line max
        (decide (lineHeader + line.length ≤ r.size - r.heldHead))))) cs (grown r pre post id dropped key line max) := by
  obtain ⟨harea, htaken⟩ := h.area.addLine line hmax
  have hmem : Entry.mark id dropped key ∈ pre ++ .mark id dropped key :: post := List.mem_append_right _ (List.mem_cons_self ..)
  -- another key has another id
  have hne : ∀ {k i d}, k ≠ key → Entry.mark i d k ∈ pre ++ .mark id dropped key :: post → i ≠ id := by
    rintro k i d hk hm rfl
    exact hk (h.area.marked.mark_unique hm hmem).2
  have hown : ∀ i d, Entry.mark i d key ∈ pre ++ .mark id dropped key :: post ↔ i = id ∧ d = dropped := by
    intro i d
    constructor
    · intro hm
      obtain rfl := h.area.keyed hm hmem
      exact ⟨rfl, (h.area.marked.mark_unique hm hmem).1⟩
    · rintro ⟨rfl, rfl⟩
      exact hmem
  refine ⟨harea, htaken ▸ h.taken, htaken ▸ h.committed, ?_⟩
  simp only [OpenRecord.grow, grown, flatten_linesOf, length_lineBytes_mine, decide_eq_false_iff_not, not_le]
  split
  · exact opened_set_some h.opened (fun k _ i d => Iff.rfl) (fun k _ i d _ => rfl) hown rfl
  · rename_i hgo
    simp only [not_or, Bool.not_eq_true] at hgo
    obtain ⟨rfl, -⟩ := hgo
    split
    · have hl (i : Byte) : linesOf i (pre ++ .mark id true key :: post) = linesOf i (pre ++ .mark id false key :: post) := by
        rw [linesOf_append, linesOf_append, linesOf_cons_mark, linesOf_cons_mark]
      have hmarks : ∀ k i d, Entry.mark i d k ∈ pre ++ .mark id true key :: post ↔
          (Entry.mark i d k ∈ pre ∨ (i = id ∧ d = true ∧ k = key) ∨ Entry.mark i d k ∈ post) := by
        intro k i d
        simp only [List.mem_append, List.mem_cons, Entry.mark.injEq]
      have hmarks' : ∀ k i d, Entry.mark i d k ∈ pre ++ .mark id false key :: post ↔
          (Entry.mark i d k ∈ pre ∨ (i = id ∧ d = false ∧ k = key) ∨ Entry.mark i d k ∈ post) := by
        intro k i d
        simp only [List.mem_append, List.mem_cons, Entry.mark.injEq]
      refine opened_set_some h.opened (fun k hk i d => ?_) (fun k _ i d _ => hl i) (fun i d => ?_) (by rw [hl])
      · rw [hmarks, hmarks']
        simp only [hk, and_false]
      · rw [hmarks]
        constructor
        · -- in front of the marker and behind it there is none of the key
          have hnot : ∀ {i d}, Entry.mark i d key ∈ pre ∨ Entry.mark i d key ∈ post → False := by
            intro i d hm
            obtain ⟨rfl, rfl⟩ := (hown i d).mp ((hmarks' key i d).mpr (hm.elim Or.inl fun hm => Or.inr (Or.inr hm)))
            obtain ⟨-, hnot, hpost⟩ := marked_append.mp h.area.marked
            rcases hm with hm | hm
            · exact hnot (Or.inr ⟨false, key, hm⟩)
            · exact hpost.mark_notin hm (Set.mem_insert _ _)
          rintro (hm | ⟨hi, hd, -⟩ | hm)
          · exact absurd (Or.inl hm) hnot
          · exact ⟨hi, hd⟩
          · exact absurd (Or.inr hm) hnot
        · rintro ⟨hi, hd⟩
          exact Or.inr (Or.inl ⟨hi, hd, rfl⟩)
    · have hmarks : ∀ k i d, Entry.mark i d k ∈ pre ++ .mark id false key :: post ++ [.line id line] ↔
          Entry.mark i d k ∈ pre ++ .mark id false key :: post := by
        intro k i d
        rw [List.mem_append, List.mem_singleton]
        refine or_iff_left fun hc => ?_
        cases hc
      have hl (i : Byte) : linesOf i (pre ++ .mark id false key :: post ++ [.line id line]) =
          linesOf i (pre ++ .mark id false key :: post) ++ if id = i then [line] else [] := by
        rw [linesOf_append, linesOf_cons_line]
        rfl
      refine opened_set_some h.opened (fun k _ i d => hmarks k i d) (fun k hk i d hm => ?_)
        (fun i d => (hmarks key i d).trans (hown i d)) ?_
      · rw [hl, if_neg (hne hk hm).symm, List.append_nil]
      · rw [hl, if_pos rfl]

theorem Represents.opened_none (h : Represents r a cs es) (hnone : ∀ id dropped, Entry.mark id dropped key ∉ es) :
    a.opened key = none := by
  cases ho : a.opened key with
  | none => rfl
  | some o =>
    obtain ⟨id, dropped, hm, -⟩ := (h.opened key o).mp ho
    exact absurd hm (hnone id dropped)

theorem Represents.append (h : Represents r a cs es) (key : Key) (line : List Byte) (hmax : max < 65536) :
    ∃ es', Represents (r.consoleHeldAppend key line max).1 (a.append key line max (r.room (.append key line max))).1 cs es' ∧
      (r.consoleHeldAppend key line max).2 = (a.append key line max (r.room (.append key line max))).2 := by
  by_cases hquiet : r.armed ∨ !r.present
  · -- an armed ring, or none, takes no record
    have hes : es = [] := h.area.quiet (by simpa using hquiet)
    have hno : a.opened key = none := h.opened_none fun _ _ => by rw [hes]; exact List.not_mem_nil
    have hopens : (r.room (.append key line max)).opens = false := by
      rcases hquiet with hq | hq <;> simp_all [Store.room]
    simp only [Store.consoleHeldAppend, if_pos hquiet, Spool.append, hno, hopens]
    exact ⟨es, h, rfl⟩
  · have hq : r.armed = false ∧ r.present = true := by simpa using hquiet
    by_cases hex : ∃ id dropped, Entry.mark id dropped key ∈ es
    · obtain ⟨id, dropped, hmem⟩ := hex
      have ho : a.opened key = some ⟨linesOf id es, dropped⟩ := (h.opened key _).mpr ⟨id, dropped, hmem, rfl⟩
      obtain ⟨pre, post, rfl, hat, hne, -⟩ := h.area.heldMarkKey_some hmem
      have hfits : (r.room (.append key line max)).fits = decide (lineHeader + line.length ≤ r.size - r.heldHead) := by
        simp only [Store.room, if_neg hne]
      have hgrow := h.addLine line hmax
      rw [← hat, ← hfits] at hgrow
      simp only [Store.consoleHeldAppend, if_neg hquiet, if_neg hne, Spool.append, ho]
      exact ⟨_, hgrow, trivial⟩
    · have hnone : ∀ id dropped, Entry.mark id dropped key ∉ es := fun id dropped hm => hex ⟨id, dropped, hm⟩
      have hno := h.opened_none hnone
      have hat := h.area.heldMarkKey_none hnone
      cases hopen : r.openRecord key with
      | none =>
        have hopens : (r.room (.append key line max)).opens = false := by
          unfold Store.openRecord at hopen
          simp only at hopen
          split at hopen
          · rename_i hcond
            rcases hcond with hid | hsize
            · simp [Store.room, hid]
            · simp [Store.room, Nat.not_le.mpr hsize]
          · cases hopen
        simp only [Store.consoleHeldAppend, if_neg hquiet, hat, if_true, hopen, Spool.append, hno, hopens]
        exact ⟨es, h, rfl⟩
      | some s =>
        obtain ⟨id, hfresh, harea, hs⟩ := h.area.openRecord hq hnone hopen
        have hrep := h.open hnone hfresh harea (by rw [hs])
        have hopens : (r.room (.append key line max)).opens = true := by
          unfold Store.openRecord at hopen
          simp only at hopen
          split at hopen
          · cases hopen
          · rename_i hcond
            simp only [not_or, not_lt] at hcond
            simp [Store.room, hq, hcond]
        have hfits : (r.room (.append key line max)).fits = decide (lineHeader + line.length ≤ s.size - s.heldHead) := by
          rw [hs]
          simp only [Store.room, hat, if_true]
        have hplace : r.heldHead = s.heldOpen + (encodeAll es).length := by
          rw [hs]
          exact h.area.head
        have hgrow := hrep.addLine line hmax
        rw [← hplace, ← hfits, linesOf_append, linesOf_fresh h.area.marked hfresh, linesOf_cons_mark] at hgrow
        simp only [Store.consoleHeldAppend, if_neg hquiet, hat, if_true, hopen, Spool.append, hno, hopens]
        rw [Spool.set, Spool.set, Function.update_idem] at hgrow
        exact ⟨_, hgrow, trivial⟩

/-! ### Records that leave -/

theorem behind_append {t : Nat} (ds : List (List Byte)) (h : cs = [] → t = 0) : behind t (cs ++ ds) = behind t cs ++ ds := by
  cases cs with
  | nil =>
    rw [h rfl]
    cases ds <;> rfl
  | cons c cs => rfl

theorem represents_settle (harea : Area r cs es) (htaken : (cs = [] ∧ r.heldTaken = 0) ∨ ∃ c cs', cs = c :: cs' ∧
    r.heldTaken < c.length) (hcommitted : a.committed = behind r.heldTaken cs)
    (hopened : ∀ key o, a.opened key = some o ↔ ∃ id dropped, Entry.mark id dropped key ∈ es ∧ o = ⟨linesOf id es, dropped⟩) :
    Represents r.heldSettle a cs es := by
  rcases htaken with ⟨rfl, ht⟩ | ⟨c, cs', rfl, ht⟩
  · obtain ⟨hs, hst⟩ := harea.settle_empty
    exact ⟨hs, Or.inl ⟨rfl, hst.trans ht⟩, hcommitted, hopened⟩
  · rw [harea.settle_kept ht]
    exact ⟨harea, Or.inr ⟨c, cs', rfl, ht⟩, hcommitted, hopened⟩

theorem Represents.commit (h : Represents r a cs es) (key : Key) :
    ∃ cs' es', Represents (r.consoleHeldCommit key).1 (a.commit key).1 cs' es' ∧
      (r.consoleHeldCommit key).2 = (a.commit key).2 := by
  by_cases hex : ∃ id dropped, Entry.mark id dropped key ∈ es
  · obtain ⟨id, dropped, hmem⟩ := hex
    have ho : a.opened key = some ⟨linesOf id es, dropped⟩ := (h.opened key _).mpr ⟨id, dropped, hmem, rfl⟩
    obtain ⟨-, -, -, -, hne, hid⟩ := h.area.heldMarkKey_some hmem
    obtain ⟨harea, htaken⟩ := h.area.commitRecord hmem
    have hzero : cs = [] → r.heldTaken = 0 := by
      intro hcs
      rcases h.taken with ⟨-, ht⟩ | ⟨c, cs', hc, -⟩
      · exact ht
      · rw [hcs] at hc
        cases hc
    have hqueue : a.committed ++ (if (linesOf id es).flatten = [] then [] else [(linesOf id es).flatten]) =
        behind r.heldTaken (queued cs (lineBytes (mine id es))) := by
      rw [queued, behind_append _ hzero, h.committed, flatten_linesOf]
    -- the record in front is as it was, or the new one is the first
    have hfirst : (queued cs (lineBytes (mine id es)) = [] ∧ r.heldTaken = 0) ∨
        ∃ c cs', queued cs (lineBytes (mine id es)) = c :: cs' ∧ r.heldTaken < c.length := by
      rcases h.taken with ⟨rfl, ht⟩ | ⟨c, cs', rfl, ht⟩
      · by_cases hnil : lineBytes (mine id es) = []
        · exact Or.inl ⟨by rw [queued, if_pos hnil]; rfl, ht⟩
        · exact Or.inr ⟨_, [], by rw [queued, if_neg hnil]; rfl, by rw [ht]; exact List.length_pos_of_ne_nil hnil⟩
      · exact Or.inr ⟨c, _, rfl, ht⟩
    simp only [Store.consoleHeldCommit, if_neg hne, hid, Spool.commit, ho]
    refine ⟨_, _, represents_settle harea (htaken ▸ hfirst) (htaken ▸ hqueue) (h.opened_set_none hmem), trivial⟩
  · have hnone : ∀ id dropped, Entry.mark id dropped key ∉ es := fun id dropped hm => hex ⟨id, dropped, hm⟩
    simp only [Store.consoleHeldCommit, h.area.heldMarkKey_none hnone, if_true, Spool.commit, h.opened_none hnone]
    exact ⟨cs, es, h, trivial⟩

theorem Represents.abandon (h : Represents r a cs es) (key : Key) : ∃ es', Represents (r.consoleHeldAbandon key)
    (a.abandon key) cs es' := by
  by_cases hex : ∃ id dropped, Entry.mark id dropped key ∈ es
  · obtain ⟨id, dropped, hmem⟩ := hex
    obtain ⟨-, -, -, -, hne, hid⟩ := h.area.heldMarkKey_some hmem
    obtain ⟨harea, htaken⟩ := h.area.heldDrop id
    simp only [Store.consoleHeldAbandon, if_neg hne, hid, Spool.abandon]
    exact ⟨_, represents_settle harea (htaken ▸ h.taken) (htaken ▸ h.committed) (h.opened_set_none hmem)⟩
  · have hnone : ∀ id dropped, Entry.mark id dropped key ∉ es := fun id dropped hm => hex ⟨id, dropped, hm⟩
    have hsame : a.abandon key = a := by
      rw [Spool.abandon, Spool.set, ← h.opened_none hnone, Function.update_eq_self]
    simp only [Store.consoleHeldAbandon, h.area.heldMarkKey_none hnone, if_true, hsame]
    exact ⟨es, h⟩

theorem Represents.take (h : Represents r a cs es) {n : Nat} (hn : n ≤ r.consoleHeldReady) :
    ∃ cs', Represents (r.consoleHeldTake n) (a.take n) cs' es := by
  rw [h.shown.1, Spool.shown, h.committed] at hn
  have harea : Area { r with heldTaken := r.heldTaken + n } cs es := { h.area with }
  rcases h.taken with ⟨rfl, ht⟩ | ⟨c, cs', rfl, ht⟩
  · obtain rfl : n = 0 := Nat.le_zero.mp hn
    have hsame : a.take 0 = a := by
      obtain ⟨q, o⟩ := a
      obtain rfl : q = [] := h.committed
      rfl
    rw [hsame]
    exact ⟨[], represents_settle harea (Or.inl ⟨rfl, ht⟩) h.committed h.opened⟩
  · have hn : n ≤ (c.drop r.heldTaken).length := hn
    rw [List.length_drop] at hn
    have hq : a.committed = c.drop r.heldTaken :: cs' := h.committed
    by_cases hall : r.heldTaken + n < c.length
    · refine ⟨c :: cs', represents_settle harea (Or.inr ⟨c, cs', rfl, hall⟩) ?_ h.opened⟩
      have hlt : n < (c.drop r.heldTaken).length := by
        rw [List.length_drop]
        omega
      simp only [Spool.take, hq, if_pos hlt, behind, List.drop_drop]
    · -- the record is taken whole
      obtain ⟨hs, hst⟩ := harea.settle_popped (show r.heldTaken + n = c.length by omega)
      have hnlt : ¬ n < (c.drop r.heldTaken).length := by
        rw [List.length_drop]
        omega
      refine ⟨cs', hs, ?_, ?_, h.opened⟩
      · cases cs' with
        | nil => exact Or.inl ⟨rfl, hst⟩
        | cons d ds =>
          refine Or.inr ⟨d, ds, rfl, ?_⟩
          have hd := (h.area.lens d (List.mem_cons_of_mem _ (List.mem_cons_self ..))).1
          rw [Store.consoleHeldTake, hst]
          exact List.length_pos_of_ne_nil hd
      · simp only [Spool.take, hq, if_neg hnlt]
        rw [Store.consoleHeldTake, hst]
        cases cs' <;> rfl

/-! ### Every run -/

theorem Represents.step (h : Represents r a cs es) {op : Op} (hop : r.Admits op) :
    ∃ cs' es', Represents (r.step op).1 (a.step (op, r.room op)).1 cs' es' ∧ (r.step op).2 = (a.step (op, r.room op)).2 := by
  cases op with
  | append key line max =>
    obtain ⟨es', h', hcode⟩ := h.append key line hop
    exact ⟨cs, es', h', hcode⟩
  | commit key => exact h.commit key
  | abandon key =>
    obtain ⟨es', h'⟩ := h.abandon key
    exact ⟨cs, es', h', rfl⟩
  | take n =>
    obtain ⟨cs', h'⟩ := h.take hop
    exact ⟨cs', es, h', rfl⟩

theorem Represents.run (h : Represents r a cs es) {ops : List Op} (hops : r.AdmitsAll ops) :
    r.answers ops = a.answers (r.rooms ops) ∧ ∃ cs' es', Represents (r.run ops) (a.run (r.rooms ops)) cs' es' := by
  induction ops generalizing r a cs es with
  | nil => exact ⟨rfl, cs, es, h⟩
  | cons op ops ih =>
    obtain ⟨hop, hops⟩ := hops
    obtain ⟨cs', es', h', hcode⟩ := h.step hop
    obtain ⟨hans, hrun⟩ := ih h' hops
    obtain ⟨hready, hdata⟩ := h'.shown
    refine ⟨?_, hrun⟩
    simp only [Store.answers, Spool.answers, Store.rooms, hcode, hready, hdata, hans]

theorem represents_fresh (h : r.Fresh) : Represents r Spool.empty [] [] where
  area :=
    { records := trivial
      opened := by rw [h.opened, h.tail]; rfl
      entries := trivial
      head := by rw [h.head, h.opened]; rfl
      room := by rw [h.head]; exact Nat.zero_le _
      lens := fun _ hc => absurd hc List.not_mem_nil
      ok := fun _ he => absurd he List.not_mem_nil
      marked := trivial
      keyed := fun hm => absurd hm List.not_mem_nil
      caps := fun _ => Nat.zero_lt_succ _
      quiet := fun _ => rfl }
  taken := Or.inl ⟨rfl, h.taken⟩
  committed := rfl
  opened := fun key o => by
    constructor
    · intro ho
      cases ho
    · rintro ⟨id, dropped, hm, -⟩
      exact absurd hm List.not_mem_nil

/-- Over every sequence of calls, on a store of any size with anything in its buffer, each call answers as the spool's
does and a reader is then shown exactly what the spool shows; the store goes on standing for the spool. -/
theorem held_store_refines (hfresh : r.Fresh) (ops : List Op) (hops : r.AdmitsAll ops) :
    r.answers ops = Spool.empty.answers (r.rooms ops) ∧
      ∃ cs es, Represents (r.run ops) (Spool.empty.run (r.rooms ops)) cs es :=
  (represents_fresh hfresh).run hops

def smallStore : Store := ⟨fun _ => 0, 64, true, false, 0, 0, 0, 0⟩

/-- Two writers whose lines interleave, the second over its cap. -/
def twoWriters : List Op :=
  [.append 7 [1, 2, 3] 100, .append 9 [4] 2, .append 7 [5] 100, .append 9 [6, 7] 2, .commit 7, .take 3,
    .append 9 [8] 2, .commit 9, .take 1, .take 1]

theorem held_store_refines_twoWriters :
    smallStore.AdmitsAll twoWriters ∧ smallStore.answers twoWriters = Spool.empty.answers (smallStore.rooms twoWriters) := by
  have hops : smallStore.AdmitsAll twoWriters := by decide +kernel
  exact ⟨hops, (held_store_refines ⟨rfl, rfl, rfl, rfl⟩ twoWriters hops).1⟩

end Held
end KickOS
