import KickOS.Held.Spool

/-! What the operations do to the area: the records and the entries that stand in it before and after. -/

namespace KickOS
namespace Held

open Lib.Buffer

variable {r : Store} {a : Spool} {cs : List (List Byte)} {es pre post : List Entry} {id : Byte} {dropped : Bool} {key : Key}

/-! ### Reading the area -/

theorem length_record (c : List Byte) : (record c).length = header + c.length := by
  rw [record, List.length_cons, List.length_cons, header]
  omega

theorem heldLen_record {b : Nat → Byte} {place : Nat} {c : List Byte} (h : Stands b place (record c)) (hlen : c.length < 65536) :
    heldLen b place = c.length := by
  obtain ⟨h₀, h₁, -⟩ := h
  rw [heldLen, h₀, h₁]
  exact len_of_bytes hlen

theorem Area.first {c : List Byte} (h : Area r (c :: cs) es) :
    heldLen r.buf r.heldTail = c.length ∧ heldRecordFits r.buf r.heldTail r.heldOpen = true ∧ r.heldTail ≠ r.heldOpen := by
  have hst := h.records
  have hop := h.opened
  rw [List.flatMap_cons] at hst hop
  rw [List.length_append, length_record] at hop
  have hlen := heldLen_record (stands_append.mp hst).1 (h.lens c (List.mem_cons_self ..)).2
  have htwo : header = 2 := rfl
  refine ⟨hlen, ?_, by omega⟩
  simp only [heldRecordFits, hlen, Bool.and_eq_true, decide_eq_true_eq]
  omega

theorem Area.walk (h : Area r cs es) : r.walk = places r.heldOpen es := by
  have := length_le_encodeAll es
  exact heldWalk_eq h.entries h.ok h.head (by have := h.head; omega)

theorem Area.heldMark_at {sought : Nat → Bool} {q : Entry → Bool} {e : Entry} (h : Area r cs (pre ++ e :: post))
    (hq : ∀ place f, f ∈ pre ++ e :: post → Stands r.buf place f.encode → (heldIsMark r.buf place && sought place) = q f)
    (hpre : ∀ f ∈ pre, q f = false) (he : q e = true) : r.heldMark sought = r.heldOpen + (encodeAll pre).length := by
  have hst := h.entries
  rw [encodeAll_append, encodeAll_cons] at hst
  obtain ⟨hstpre, hste⟩ := stands_append.mp hst
  have hfind := find_places (p := fun w => heldIsMark r.buf w.1 && sought w.1)
    (fun place f hf hs => hq place f (List.mem_append_left _ hf) hs) hstpre hpre (e :: post)
  have hhere := hq _ e (List.mem_append_right _ (List.mem_cons_self ..)) (stands_append.mp hste).1
  rw [Store.heldMark, h.walk, hfind, places, List.find?_cons_of_pos (by simpa using hhere.trans he)]

theorem Area.heldMark_none {sought : Nat → Bool} {q : Entry → Bool} (h : Area r cs es)
    (hq : ∀ place f, f ∈ es → Stands r.buf place f.encode → (heldIsMark r.buf place && sought place) = q f)
    (hnone : ∀ f ∈ es, q f = false) : r.heldMark sought = r.heldHead := by
  have hfind := find_places (p := fun w => heldIsMark r.buf w.1 && sought w.1) (fun place f hf hs => hq place f hf hs)
      h.entries hnone []
  rw [List.append_nil] at hfind
  rw [Store.heldMark, h.walk, hfind]
  rfl

def isMarkOf (key : Key) : Entry → Bool
  | .mark _ _ k => k = key
  | .line _ _ => false

theorem Area.reads_key (h : Area r cs es) (place : Nat) (f : Entry) (hf : f ∈ es) (hs : Stands r.buf place f.encode) :
    (heldIsMark r.buf place && decide (heldKeyAt r.buf place = key)) = isMarkOf key f := by
  rw [heldIsMark_entry hs (h.ok f hf)]
  cases f with
  | mark id dropped k =>
    rw [heldKeyAt_entry hs]
    rfl
  | line id bytes => rfl

theorem Area.reads_id (h : Area r cs es) (place : Nat) (f : Entry) (hf : f ∈ es) (hs : Stands r.buf place f.encode) :
    (heldIsMark r.buf place && decide (heldId r.buf place = id)) = (f.isMark && decide (f.id = id)) := by
  rw [heldIsMark_entry hs (h.ok f hf), heldId_entry hs (h.ok f hf)]

theorem Area.heldMarkKey_none (h : Area r cs es) (hnone : ∀ id dropped, Entry.mark id dropped key ∉ es) :
    r.heldMarkKey key = r.heldHead := by
  refine h.heldMark_none h.reads_key fun f hf => ?_
  cases f with
  | mark id dropped k =>
    refine decide_eq_false fun hk => ?_
    subst hk
    exact hnone id dropped hf
  | line id bytes => rfl

theorem Area.heldMarkKey_some (h : Area r cs es) (hmem : Entry.mark id dropped key ∈ es) :
    ∃ pre post, es = pre ++ .mark id dropped key :: post ∧ r.heldMarkKey key = r.heldOpen + (encodeAll pre).length ∧
      r.heldMarkKey key ≠ r.heldHead ∧ heldId r.buf (r.heldMarkKey key) = id := by
  obtain ⟨pre, post, rfl⟩ := List.append_of_mem hmem
  have hpre : ∀ f ∈ pre, isMarkOf key f = false := by
    intro f hf
    cases f with
    | line id' bytes => rfl
    | mark id' dropped' k =>
      refine decide_eq_false fun hk => ?_
      subst hk
      -- the same key has the same id, and an id has one marker
      obtain rfl := h.keyed hmem (List.mem_append_left _ hf)
      obtain ⟨-, hnot, -⟩ := marked_append.mp h.marked
      exact hnot (Or.inr ⟨dropped', k, hf⟩)
  have hat : r.heldMarkKey key = r.heldOpen + (encodeAll pre).length :=
    h.heldMark_at (q := isMarkOf key) h.reads_key hpre (decide_eq_true rfl)
  have hst := h.entries
  rw [encodeAll_append, encodeAll_cons] at hst
  have hhere := (stands_append.mp (stands_append.mp hst).2).1
  have hhead := h.head
  rw [encodeAll_append, encodeAll_cons, List.length_append, List.length_append, length_encode_mark, mark] at hhead
  refine ⟨pre, post, rfl, hat, by omega, ?_⟩
  rw [hat]
  exact heldId_entry hhere (h.ok _ hmem)

theorem Area.freeId_spec (h : Area r cs es) (hid : r.freeId idCount 0 ≠ idCount) :
    r.freeId idCount 0 < idCount ∧ BitVec.ofNat 8 (r.freeId idCount 0) ∉ ids es := by
  have hloop : ∀ fuel k, k + fuel = idCount →
      r.freeId fuel k ≤ idCount ∧ (r.freeId fuel k = idCount ∨ r.heldMarkId (BitVec.ofNat 8 (r.freeId fuel k)) = r.heldHead) := by
    intro fuel
    induction fuel with
    | zero =>
      intro k hk
      exact ⟨by rw [Store.freeId]; omega, Or.inl (by rw [Store.freeId]; omega)⟩
    | succ fuel ih =>
      intro k hk
      rw [Store.freeId]
      split
      · exact ih (k + 1) (by omega)
      · rename_i hstop
        refine ⟨by omega, ?_⟩
        by_contra hcon
        exact hstop ⟨fun h' => hcon (Or.inl h'), fun h' => hcon (Or.inr h')⟩
  obtain ⟨hle, hor⟩ := hloop idCount 0 (Nat.zero_add _)
  refine ⟨by omega, ?_⟩
  rintro ⟨dropped, key, hmem⟩
  -- a marker with that id would have been found
  obtain ⟨pre, post, rfl⟩ := List.append_of_mem hmem
  have hpre : ∀ f ∈ pre, (f.isMark && decide (f.id = BitVec.ofNat 8 (r.freeId idCount 0))) = false := by
    intro f hf
    cases f with
    | line id' bytes => rfl
    | mark id' dropped' k =>
      refine Bool.and_eq_false_imp.mpr fun _ => decide_eq_false fun heq => ?_
      obtain ⟨-, hnot, -⟩ := marked_append.mp h.marked
      exact hnot (Or.inr ⟨dropped', k, heq ▸ hf⟩)
  have hat : r.heldMarkId (BitVec.ofNat 8 (r.freeId idCount 0)) = r.heldOpen + (encodeAll pre).length :=
    h.heldMark_at (q := fun f => f.isMark && decide (f.id = BitVec.ofNat 8 (r.freeId idCount 0))) h.reads_id hpre
      (by simp [Entry.isMark, Entry.id])
  have hfound : r.heldMarkId (BitVec.ofNat 8 (r.freeId idCount 0)) = r.heldHead := hor.resolve_left hid
  have hhead := h.head
  rw [encodeAll_append, encodeAll_cons, List.length_append, List.length_append, length_encode_mark, mark] at hhead
  rw [hat] at hfound
  omega

/-! ### Settling -/

theorem Area.settle_kept {c : List Byte} (h : Area r (c :: cs) es) (ht : r.heldTaken < c.length) : r.heldSettle = r := by
  obtain ⟨hlen, hfits, hne⟩ := h.first
  have hloop : Store.settleLoop (r.heldOpen + 1) r = r := by
    rw [Store.settleLoop, if_neg hne, hfits, hlen, if_neg (by simp), if_pos (by omega)]
  rw [Store.heldSettle, hloop, Store.settleMove, if_neg (fun hm => hne hm.1)]

theorem Area.settleMove (h : Area r [] es) : Area r.settleMove [] es ∧ r.settleMove.heldTaken = r.heldTaken := by
  rw [Store.settleMove]
  have hop : r.heldOpen = r.heldTail := h.opened
  have hlen : r.heldHead - r.heldOpen = (encodeAll es).length := by
    have := h.head
    omega
  split
  · obtain ⟨hm, -⟩ := moveDown_spec h.entries (Nat.zero_le _)
    refine ⟨{ h with records := trivial, opened := rfl, entries := ?_, head := ?_, room := ?_ }, rfl⟩
    · rw [hlen]
      exact hm
    · rw [hlen, Nat.zero_add]
    · exact (Nat.sub_le _ _).trans h.room
  · exact ⟨h, rfl⟩

theorem Area.settle_empty (h : Area r [] es) : Area r.heldSettle [] es ∧ r.heldSettle.heldTaken = r.heldTaken := by
  have hloop : Store.settleLoop (r.heldOpen + 1) r = r := by
    rw [Store.settleLoop, if_pos (show r.heldTail = r.heldOpen from h.opened.symm)]
  rw [Store.heldSettle, hloop]
  exact h.settleMove

theorem Area.settle_popped {c : List Byte} (h : Area r (c :: cs) es) (ht : r.heldTaken = c.length) :
    Area r.heldSettle cs es ∧ r.heldSettle.heldTaken = 0 := by
  obtain ⟨hlen, hfits, hne⟩ := h.first
  have hst := h.records
  have hop := h.opened
  rw [List.flatMap_cons] at hst hop
  rw [List.length_append, length_record] at hop
  have hrest := (stands_append.mp hst).2
  rw [length_record, ← Nat.add_assoc] at hrest
  -- the store behind the record
  obtain ⟨s, hs⟩ : ∃ s, s = { r with heldTail := r.heldTail + header + heldLen r.buf r.heldTail, heldTaken := 0 } := ⟨_, rfl⟩
  have harea : Area s cs es := by
    rw [hs]
    refine { h with records := ?_, opened := ?_, lens := fun d hd => h.lens d (List.mem_cons_of_mem _ hd) }
    · rw [hlen]
      exact hrest
    · rw [hlen]
      show r.heldOpen = r.heldTail + header + c.length + (cs.flatMap record).length
      omega
  have htaken : s.heldTaken = 0 := by rw [hs]
  have hopen : s.heldOpen = r.heldOpen := by rw [hs]
  have hpos : 0 < r.heldOpen := by
    rw [header] at hop
    omega
  have hloop : Store.settleLoop (r.heldOpen + 1) r = Store.settleLoop r.heldOpen s := by
    rw [Store.settleLoop, if_neg hne, hfits, if_neg (by simp), if_neg (by rw [hlen, ht]; simp), hs]
  obtain ⟨k, hk⟩ : ∃ k, r.heldOpen = k + 1 := Nat.exists_eq_add_of_le' hpos
  have hstop : Store.settleLoop r.heldOpen s = s := by
    rw [hk, Store.settleLoop]
    cases cs with
    | nil => rw [if_pos (show s.heldTail = s.heldOpen from harea.opened.symm)]
    | cons d ds =>
      obtain ⟨hlen', hfits', hne'⟩ := harea.first
      have hd := (harea.lens d (List.mem_cons_self ..)).1
      have hdpos : 0 < d.length := List.length_pos_of_ne_nil hd
      rw [if_neg hne', hfits', hlen', htaken, if_neg (by simp), if_pos (by omega)]
  rw [Store.heldSettle, hloop, hstop]
  cases cs with
  | nil =>
    obtain ⟨hm, hmt⟩ := harea.settleMove
    exact ⟨hm, hmt.trans htaken⟩
  | cons d ds =>
    rw [Store.settleMove, if_neg (fun hm => harea.first.2.2 hm.1)]
    exact ⟨harea, htaken⟩

end Held
end KickOS
