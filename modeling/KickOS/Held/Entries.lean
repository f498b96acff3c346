import KickOS.Held.Store

/-! The entries of the open area, and what the code reads of them.

An area that holds the encoding of a list of entries is walked entry by entry. Each record is one marker and the lines
behind it that carry the marker's id; an id is given out again only when its record has left. -/

namespace KickOS
namespace Held

open Lib.Buffer

/-! ### Fields in bytes -/

theorem id_bits : ∀ id : Byte, id &&& full = 0 → id &&& ~~~full = id ∧ (id ||| full) &&& ~~~full = id ∧
    (id ||| full) &&& full ≠ 0 := by
  decide +kernel

theorem ofNat_id {n : Nat} (h : n < idCount) : BitVec.ofNat 8 n &&& full = 0 := by
  have hall : ∀ k : Fin idCount, BitVec.ofNat 8 k.val &&& full = 0 := by decide +kernel
  exact hall ⟨n, h⟩

theorem key_of_bytes (key : Key) :
    (key.setWidth 8).setWidth 32 ||| (((key >>> 8).setWidth 8).setWidth 32 <<< 8) |||
      (((key >>> 16).setWidth 8).setWidth 32 <<< 16) ||| (((key >>> 24).setWidth 8).setWidth 32 <<< 24) = key := by
  apply BitVec.eq_of_getLsbD_eq
  intro i hi
  simp only [BitVec.getLsbD_or, BitVec.getLsbD_shiftLeft, BitVec.getLsbD_setWidth, BitVec.getLsbD_ushiftRight]
  rcases (show i < 8 ∨ 8 ≤ i ∧ i < 16 ∨ 16 ≤ i ∧ i < 24 ∨ 24 ≤ i by omega) with h | ⟨h, h'⟩ | ⟨h, h'⟩ | h
  · have h₁ : i < 16 := by omega
    have h₂ : i < 24 := by omega
    simp [*]
  · have h₁ : ¬ i < 8 := by omega
    have h₂ : i - 8 < 8 := by omega
    have h₃ : i - 8 < 32 := by omega
    have h₄ : i < 24 := by omega
    have h₅ : 8 + (i - 8) = i := by omega
    simp [*]
  · have h₁ : ¬ i < 8 := by omega
    have h₂ : ¬ i - 8 < 8 := by omega
    have h₃ : ¬ i < 16 := by omega
    have h₄ : i - 16 < 8 := by omega
    have h₅ : i - 16 < 32 := by omega
    have h₆ : 16 + (i - 16) = i := by omega
    simp [*]
  · have h₁ : ¬ i < 8 := by omega
    have h₂ : ¬ i - 8 < 8 := by omega
    have h₃ : ¬ i < 16 := by omega
    have h₄ : ¬ i - 16 < 8 := by omega
    have h₅ : ¬ i < 24 := by omega
    have h₆ : i - 24 < 8 := by omega
    have h₇ : i - 24 < 32 := by omega
    have h₈ : 24 + (i - 24) = i := by omega
    simp [*]

theorem len_of_bytes {n : Nat} (h : n < 65536) :
    (BitVec.ofNat 8 n).toNat ||| ((BitVec.ofNat 8 (n >>> 8)).toNat <<< 8) = n := by
  rw [BitVec.toNat_ofNat, BitVec.toNat_ofNat, Nat.or_comm, Nat.shiftRight_eq_div_pow, ← Nat.shiftLeft_add_eq_or_of_lt (by omega),
    Nat.shiftLeft_eq]
  omega

/-! ### Entries -/

inductive Entry where
  | mark (id : Byte) (dropped : Bool) (key : Key)
  | line (id : Byte) (bytes : List Byte)
  deriving DecidableEq, Repr

namespace Entry

def id : Entry → Byte
  | mark id _ _ => id
  | line id _ => id

def isMark : Entry → Bool
  | mark _ _ _ => true
  | line _ _ => false

/-- The bytes of a line; a marker has none. -/
def bytes : Entry → List Byte
  | mark _ _ _ => []
  | line _ bytes => bytes

def encode : Entry → List Byte
  | mark id dropped key => (if dropped then id ||| full else id) :: 0 :: Store.keyBytes key
  | line id bytes => id :: BitVec.ofNat 8 bytes.length :: bytes

/-- An id with the mark's bit clear, and a length its byte can say. -/
def Ok : Entry → Prop
  | mark id _ _ => id &&& full = 0
  | line id bytes => id &&& full = 0 ∧ bytes ≠ [] ∧ bytes.length ≤ 255

end Entry

def encodeAll (es : List Entry) : List Byte := es.flatMap Entry.encode

@[simp] theorem encodeAll_nil : encodeAll [] = [] := rfl

@[simp] theorem encodeAll_cons (e : Entry) (es : List Entry) : encodeAll (e :: es) = e.encode ++ encodeAll es := rfl

@[simp] theorem encodeAll_append (es fs : List Entry) : encodeAll (es ++ fs) = encodeAll es ++ encodeAll fs := List.flatMap_append

section entry

variable {b : Nat → Byte} {place fin : Nat} {e : Entry} {es : List Entry}

theorem length_encode_mark (id : Byte) (dropped : Bool) (key : Key) : (Entry.mark id dropped key).encode.length = mark := rfl

theorem length_encode_line (id : Byte) (bytes : List Byte) : (Entry.line id bytes).encode.length = lineHeader + bytes.length := by
  rw [Entry.encode, List.length_cons, List.length_cons, lineHeader]
  omega

theorem two_le_length_encode (e : Entry) : 2 ≤ e.encode.length := by
  cases e with
  | mark id dropped key => rw [length_encode_mark, mark]; omega
  | line id bytes => rw [length_encode_line, lineHeader]; omega

theorem ofNat_length_ne {bytes : List Byte} (hne : bytes ≠ []) (hle : bytes.length ≤ 255) :
    (BitVec.ofNat 8 bytes.length).toNat = bytes.length ∧ BitVec.ofNat 8 bytes.length ≠ 0 := by
  have hpos : 0 < bytes.length := List.length_pos_of_ne_nil hne
  have hnat : (BitVec.ofNat 8 bytes.length).toNat = bytes.length := by
    rw [BitVec.toNat_ofNat]
    omega
  refine ⟨hnat, fun h => ?_⟩
  rw [h] at hnat
  have : (0 : BitVec 8).toNat = 0 := rfl
  omega

theorem heldId_entry (h : Stands b place e.encode) (hok : e.Ok) : heldId b place = e.id := by
  cases e with
  | mark id dropped key =>
    obtain ⟨h₁, h₂, -⟩ := id_bits id hok
    rw [heldId, h.1]
    cases dropped with
    | false => exact h₁
    | true => exact h₂
  | line id bytes =>
    rw [heldId, h.1]
    exact (id_bits id hok.1).1

theorem heldIsMark_entry (h : Stands b place e.encode) (hok : e.Ok) : heldIsMark b place = e.isMark := by
  cases e with
  | mark id dropped key =>
    rw [heldIsMark, h.2.1]
    rfl
  | line id bytes =>
    rw [heldIsMark, h.2.1]
    exact decide_eq_false (ofNat_length_ne hok.2.1 hok.2.2).2

theorem heldKeyAt_entry {id : Byte} {dropped : Bool} {key : Key} (h : Stands b place (Entry.mark id dropped key).encode) :
    heldKeyAt b place = key := by
  obtain ⟨-, -, h₀, h₁, h₂, h₃, -⟩ := h
  rw [heldKeyAt, h₀, h₁, h₂, h₃]
  exact key_of_bytes key

theorem heldFit_entry (h : Stands b place e.encode) (hok : e.Ok) (hfin : place + e.encode.length ≤ fin) :
    heldFit b place fin = e.encode.length := by
  have htwo := two_le_length_encode e
  have hsize : (if heldIsMark b place then mark else lineHeader + (b (place + 1)).toNat) = e.encode.length := by
    rw [heldIsMark_entry h hok]
    cases e with
    | mark id dropped key => rfl
    | line id bytes =>
      rw [h.2.1, (ofNat_length_ne hok.2.1 hok.2.2).1, length_encode_line]
      rfl
  have hin : ¬ (fin ≤ place ∨ fin - place < lineHeader) := by
    rw [lineHeader]
    omega
  simp only [heldFit, if_neg hin, hsize]
  exact if_neg (by omega)

theorem heldFit_end : heldFit b fin fin = 0 := by simp [heldFit]

/-! ### The walk -/

/-- Where the entries stand, with their sizes. -/
def places : Nat → List Entry → List (Nat × Nat)
  | _, [] => []
  | place, e :: es => (place, e.encode.length) :: places (place + e.encode.length) es

theorem length_le_encodeAll (es : List Entry) : es.length ≤ (encodeAll es).length := by
  induction es with
  | nil => exact le_rfl
  | cons e es ih =>
    have := two_le_length_encode e
    rw [encodeAll_cons, List.length_append, List.length_cons]
    omega

theorem heldWalk_eq {fuel : Nat} (h : Stands b place (encodeAll es)) (hok : ∀ e ∈ es, e.Ok)
    (hfin : fin = place + (encodeAll es).length) (hfuel : es.length ≤ fuel) :
    heldWalk b fin fuel place = places place es := by
  induction es generalizing place fuel with
  | nil =>
    have : fin = place := hfin
    subst this
    cases fuel with
    | zero => rfl
    | succ fuel => rw [heldWalk, heldFit_end, if_pos rfl]; rfl
  | cons e es ih =>
    obtain ⟨fuel, rfl⟩ : ∃ k, fuel = k + 1 := Nat.exists_eq_add_of_le' (by rw [List.length_cons] at hfuel; omega)
    rw [encodeAll_cons] at h hfin
    obtain ⟨he, hes⟩ := stands_append.mp h
    have htwo := two_le_length_encode e
    rw [List.length_append] at hfin
    have hfit : heldFit b place fin = e.encode.length := heldFit_entry he (hok e (List.mem_cons_self ..)) (by omega)
    rw [heldWalk, hfit, if_neg (by omega), places]
    refine congrArg _ (ih hes (fun f hf => hok f (List.mem_cons_of_mem _ hf)) (by omega) ?_)
    simpa using hfuel

theorem find_places {p : Nat × Nat → Bool} {q : Entry → Bool} {pre : List Entry}
    (hpq : ∀ at' f, f ∈ pre → Stands b at' f.encode → p (at', f.encode.length) = q f) (h : Stands b place (encodeAll pre))
    (hpre : ∀ f ∈ pre, q f = false) (post : List Entry) :
    (places place (pre ++ post)).find? p = (places (place + (encodeAll pre).length) post).find? p := by
  induction pre generalizing place with
  | nil => rfl
  | cons f pre ih =>
    rw [encodeAll_cons] at h
    obtain ⟨hf, hpre'⟩ := stands_append.mp h
    rw [List.cons_append, places, List.find?_cons_of_neg, encodeAll_cons, List.length_append, ← Nat.add_assoc]
    · exact ih (fun at' g hg => hpq at' g (List.mem_cons_of_mem _ hg)) hpre' fun g hg => hpre g (List.mem_cons_of_mem _ hg)
    · rw [hpq place f (List.mem_cons_self ..) hf, hpre f (List.mem_cons_self ..)]
      exact Bool.false_ne_true

/-- The bytes of the lines with this id. -/
def recordBytes (id : Byte) (es : List Entry) : Nat := ((es.filter fun e => e.id = id).flatMap Entry.bytes).length

theorem recordBytes_cons (id : Byte) (e : Entry) (es : List Entry) :
    recordBytes id (e :: es) = (if e.id = id then e.bytes.length else 0) + recordBytes id es := by
  rw [recordBytes, List.filter_cons]
  by_cases h : e.id = id
  · rw [if_pos (by simpa using h), if_pos h, List.flatMap_cons, List.length_append]
    rfl
  · rw [if_neg (by simpa using h), if_neg h, Nat.zero_add]
    rfl

theorem foldl_places {id : Byte} {acc : Nat} (h : Stands b place (encodeAll es)) (hok : ∀ e ∈ es, e.Ok) :
    (places place es).foldl
        (fun bytes w => if !heldIsMark b w.1 && heldId b w.1 = id then bytes + w.2 - lineHeader else bytes) acc =
      acc + recordBytes id es := by
  induction es generalizing place acc with
  | nil => rfl
  | cons e es ih =>
    rw [encodeAll_cons] at h
    obtain ⟨he, hes⟩ := stands_append.mp h
    have hoke := hok e (List.mem_cons_self ..)
    rw [places, List.foldl_cons, ih hes fun f hf => hok f (List.mem_cons_of_mem _ hf), recordBytes_cons,
      heldIsMark_entry he hoke, heldId_entry he hoke]
    cases e with
    | mark id' dropped key => simp [Entry.isMark, Entry.bytes]
    | line id' bytes =>
      by_cases hid : id' = id
      · simp only [Entry.isMark, Entry.id, hid, length_encode_line, Entry.bytes]
        simp
        omega
      · simp [Entry.isMark, Entry.id, hid]

end entry

end Held
end KickOS
