import KickOS.Held.Entries

/-! What the loops that move entries in place leave in the buffer.

Each loop walks entries while it stores below the point it has reached, so what it has not read yet still stands. -/

namespace KickOS
namespace Held

open Lib.Buffer

variable {b : Nat → Byte} {place fin dst lo fuel : Nat} {id : Byte} {es : List Entry}

def others (id : Byte) (es : List Entry) : List Entry := es.filter fun e => e.id ≠ id

def mine (id : Byte) (es : List Entry) : List Entry := es.filter fun e => e.id = id

theorem others_cons_of_ne {e : Entry} (h : e.id ≠ id) : others id (e :: es) = e :: others id es :=
  List.filter_cons_of_pos (by simpa using h)

theorem others_cons_of_eq {e : Entry} (h : e.id = id) : others id (e :: es) = others id es :=
  List.filter_cons_of_neg (by simpa using h)

theorem mine_cons_of_eq {e : Entry} (h : e.id = id) : mine id (e :: es) = e :: mine id es :=
  List.filter_cons_of_pos (by simpa using h)

theorem mine_cons_of_ne {e : Entry} (h : e.id ≠ id) : mine id (e :: es) = mine id es :=
  List.filter_cons_of_neg (by simpa using h)

theorem reads_head {e : Entry} (h : Stands b place (encodeAll (e :: es))) (hok : ∀ f ∈ e :: es, f.Ok)
    (hfin : fin = place + (encodeAll (e :: es)).length) :
    Stands b place e.encode ∧ Stands b (place + e.encode.length) (encodeAll es) ∧ heldFit b place fin = e.encode.length ∧
      e.encode.length ≠ 0 ∧ heldId b place = e.id ∧ heldIsMark b place = e.isMark ∧ (∀ f ∈ es, f.Ok) ∧
      fin = place + e.encode.length + (encodeAll es).length := by
  rw [encodeAll_cons] at h hfin
  obtain ⟨he, hes⟩ := stands_append.mp h
  have hoke := hok e (List.mem_cons_self ..)
  have htwo := two_le_length_encode e
  rw [List.length_append] at hfin
  refine ⟨he, hes, heldFit_entry he hoke (by omega), by omega, heldId_entry he hoke, heldIsMark_entry he hoke,
    fun f hf => hok f (List.mem_cons_of_mem _ hf), by omega⟩

/-! ### Dropping a record -/

theorem dropLoop_spec (id : Byte) (h : Stands b place (encodeAll es)) (hok : ∀ e ∈ es, e.Ok)
    (hfin : fin = place + (encodeAll es).length) (hfuel : es.length ≤ fuel) (hdst : dst ≤ place) :
    Stands (Store.dropLoop id fin fuel b dst place).1 dst (encodeAll (others id es)) ∧
      (Store.dropLoop id fin fuel b dst place).2 = dst + (encodeAll (others id es)).length ∧
      SameOutside b (Store.dropLoop id fin fuel b dst place).1 dst (dst + (encodeAll (others id es)).length) := by
  induction es generalizing b place dst fuel with
  | nil =>
    obtain rfl : fin = place := hfin
    have hstop : Store.dropLoop id fin fuel b dst fin = (b, dst) := by
      cases fuel with
      | zero => rfl
      | succ fuel => rw [Store.dropLoop, heldFit_end]; rfl
    rw [hstop]
    exact ⟨trivial, rfl, sameOutside_refl⟩
  | cons e es ih =>
    obtain ⟨fuel, rfl⟩ : ∃ k, fuel = k + 1 := Nat.exists_eq_add_of_le' (by rw [List.length_cons] at hfuel; omega)
    have hfuel : es.length ≤ fuel := by simpa using hfuel
    obtain ⟨he, hes, hfit, hne, hid, -, hoks, hfin⟩ := reads_head h hok hfin
    rw [Store.dropLoop, hfit, hid]
    by_cases heq : e.id = id
    · simp only [hne, heq, others_cons_of_eq heq, if_false, ne_eq, not_true_eq_false]
      exact ih hes hoks hfin hfuel (Nat.le_add_right_of_le hdst)
    · -- the entry moves down, and the walk goes on behind it
      obtain ⟨hm, hout⟩ := moveDown_spec he hdst
      have hrest : Stands (moveDown b dst place e.encode.length) (place + e.encode.length) (encodeAll es) :=
          hes.above hout (by omega)
      obtain ⟨h₁, h₂, h₃⟩ := ih hrest hoks hfin hfuel (show dst + e.encode.length ≤ place + e.encode.length by omega)
      simp only [hne, heq, others_cons_of_ne heq, if_false, ne_eq, not_false_eq_true, if_true, encodeAll_cons, List.length_append]
      refine ⟨stands_append.mpr ⟨hm.below h₃ le_rfl, h₁⟩, by omega, ?_⟩
      exact (hout.mono le_rfl (by omega)).trans (h₃.mono (by omega) (by omega))

/-! ### Gathering a record -/

theorem gatherLoop_spec (id : Byte) {front passed : List Byte} {gathered : Nat}
    (h : Stands b lo (front ++ (passed ++ encodeAll es))) (hok : ∀ e ∈ es, e.Ok)
    (hgathered : gathered = lo + front.length) (hplace : place = gathered + passed.length)
    (hfin : fin = place + (encodeAll es).length) (hfuel : es.length ≤ fuel) :
    Stands (Store.gatherLoop id fin fuel b gathered place).1 lo
        (front ++ (encodeAll (mine id es) ++ (passed ++ encodeAll (others id es)))) ∧
      (Store.gatherLoop id fin fuel b gathered place).2 = gathered + (encodeAll (mine id es)).length ∧
      SameOutside b (Store.gatherLoop id fin fuel b gathered place).1 lo fin := by
  induction es generalizing b front passed gathered place fuel with
  | nil =>
    obtain rfl : fin = place := hfin
    have hstop : Store.gatherLoop id fin fuel b gathered fin = (b, gathered) := by
      cases fuel with
      | zero => rfl
      | succ fuel => rw [Store.gatherLoop, heldFit_end]; rfl
    rw [hstop]
    exact ⟨h, rfl, sameOutside_refl⟩
  | cons e es ih =>
    obtain ⟨fuel, rfl⟩ : ∃ k, fuel = k + 1 := Nat.exists_eq_add_of_le' (by rw [List.length_cons] at hfuel; omega)
    have hfuel : es.length ≤ fuel := by simpa using hfuel
    obtain ⟨hfront, hback⟩ := stands_append.mp h
    obtain ⟨hpassed, hrest⟩ := stands_append.mp hback
    have hhere : Stands b place (encodeAll (e :: es)) := by
      rw [hplace, hgathered]
      exact hrest
    obtain ⟨he, hes, hfit, hne, hid, -, hoks, hfin'⟩ := reads_head hhere hok hfin
    rw [Store.gatherLoop, hfit, hid]
    by_cases heq : e.id = id
    · -- the entry changes places with the others' entries in front of it
      have hpair : Stands b gathered (passed ++ e.encode) := by
        rw [hgathered]
        refine stands_append.mpr ⟨hpassed, ?_⟩
        rw [← hgathered, ← hplace]
        exact he
      obtain ⟨hrot, hout⟩ := rotate_spec hpair
      rw [← hplace] at hrot hout
      have hnew : Stands (rotate b gathered place (place + e.encode.length)) lo
          ((front ++ e.encode) ++ (passed ++ encodeAll es)) := by
        rw [List.append_assoc, ← List.append_assoc e.encode]
        refine stands_append.mpr ⟨hfront.below hout (by omega), stands_append.mpr ⟨?_, ?_⟩⟩
        · rw [← hgathered]
          exact hrot
        · rw [List.length_append, show lo + front.length + (e.encode.length + passed.length) = place + e.encode.length by omega]
          exact hes.above hout le_rfl
      obtain ⟨h₁, h₂, h₃⟩ := ih hnew hoks
        (show gathered + e.encode.length = lo + (front ++ e.encode).length by rw [List.length_append]; omega)
        (show place + e.encode.length = gathered + e.encode.length + passed.length by omega) hfin' hfuel
      simp only [hne, heq, if_false, if_true, mine_cons_of_eq heq, others_cons_of_eq heq, encodeAll_cons, List.length_append]
      refine ⟨?_, by omega, ?_⟩
      · simpa only [List.append_assoc] using h₁
      · exact (hout.mono (by omega) (by omega)).trans h₃
    · have hnew : Stands b lo (front ++ ((passed ++ e.encode) ++ encodeAll es)) := by
        simpa only [List.append_assoc, encodeAll_cons] using h
      obtain ⟨h₁, h₂, h₃⟩ := ih hnew hoks hgathered
        (show place + e.encode.length = gathered + (passed ++ e.encode).length by rw [List.length_append]; omega) hfin' hfuel
      simp only [hne, heq, if_false, mine_cons_of_ne heq, others_cons_of_ne heq, encodeAll_cons]
      exact ⟨by simpa only [List.append_assoc] using h₁, h₂, h₃⟩

/-! ### The lines behind one length -/

/-- The bytes of the lines of a run of entries. -/
def lineBytes (es : List Entry) : List Byte := es.flatMap Entry.bytes

theorem lineBytes_cons (e : Entry) (es : List Entry) : lineBytes (e :: es) = e.bytes ++ lineBytes es := rfl

theorem length_lineBytes_le (es : List Entry) : (lineBytes es).length ≤ (encodeAll es).length := by
  induction es with
  | nil => exact le_rfl
  | cons e es ih =>
    have hle : e.bytes.length ≤ e.encode.length := by
      cases e with
      | mark id dropped key => exact Nat.zero_le _
      | line id bytes => rw [length_encode_line, Entry.bytes]; omega
    rw [lineBytes_cons, encodeAll_cons, List.length_append, List.length_append]
    omega

theorem stripLoop_spec (h : Stands b place (encodeAll es)) (hok : ∀ e ∈ es, e.Ok) (hfin : fin = place + (encodeAll es).length)
    (hfuel : es.length ≤ fuel) (hdst : dst ≤ place) :
    Stands (Store.stripLoop fin fuel b dst place).1 dst (lineBytes es) ∧
      (Store.stripLoop fin fuel b dst place).2 = dst + (lineBytes es).length ∧
      SameOutside b (Store.stripLoop fin fuel b dst place).1 dst (dst + (lineBytes es).length) := by
  induction es generalizing b place dst fuel with
  | nil =>
    obtain rfl : fin = place := hfin
    have hstop : Store.stripLoop fin fuel b dst fin = (b, dst) := by
      cases fuel with
      | zero => rfl
      | succ fuel => rw [Store.stripLoop, heldFit_end]; rfl
    rw [hstop]
    exact ⟨trivial, rfl, sameOutside_refl⟩
  | cons e es ih =>
    obtain ⟨fuel, rfl⟩ : ∃ k, fuel = k + 1 := Nat.exists_eq_add_of_le' (by rw [List.length_cons] at hfuel; omega)
    have hless : es.length ≤ fuel := by simpa using hfuel
    obtain ⟨he, hes, hfit, hne, -, hmark, hoks, hfin⟩ := reads_head h hok hfin
    rw [Store.stripLoop, hfit, hmark, lineBytes_cons]
    cases e with
    | mark id dropped key =>
      obtain ⟨h₁, h₂, h₃⟩ := ih hes hoks hfin hless (Nat.le_add_right_of_le hdst)
      simp only [hne, if_false, Entry.isMark, Bool.not_true, Bool.false_eq_true]
      exact ⟨h₁, h₂, h₃⟩
    | line id bytes =>
      have hlen : (Entry.line id bytes).encode.length - lineHeader = bytes.length := by
        rw [length_encode_line]
        omega
      have hbytes : Stands b (place + lineHeader) bytes := he.2.2
      obtain ⟨hm, hout⟩ := moveDown_spec hbytes (by omega : dst ≤ place + lineHeader)
      have hlow : dst + bytes.length ≤ place + (Entry.line id bytes).encode.length := by
        rw [length_encode_line]
        omega
      have hrest := hes.above hout hlow
      obtain ⟨h₁, h₂, h₃⟩ := ih hrest hoks hfin hless hlow
      have hstep : dst + (Entry.line id bytes).encode.length - lineHeader = dst + bytes.length := by
        rw [length_encode_line]
        omega
      simp only [hne, if_false, Entry.isMark, Bool.not_false, if_true, hlen, hstep, Entry.bytes, List.length_append]
      refine ⟨stands_append.mpr ⟨hm.below h₃ le_rfl, h₁⟩, by omega, ?_⟩
      exact (hout.mono le_rfl (by omega)).trans (h₃.mono (by omega) (by omega))

end Held
end KickOS
